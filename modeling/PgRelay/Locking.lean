import PgRelay.Transactions

/-!
# Row locks make commits atomic

The invariant behind every result about interleavings. An open transaction holds the lock of
every job it has written, so the committed rows under its writes stay as they were when it wrote.
Its commit therefore appends legal operations to the log, and the committed job table is always
the replay of the log.

Two statements update rows without testing them again: a claim updates the rows its subqueries
have locked, and a purge deletes the rows it found in its snapshot without any lock. For the
first the invariant keeps the locked rows claimable, for the second it keeps the found rows final.
-/

namespace PgRelay

open RowStore

/-- What is left of a job in a final state: at most the reference to a replayed job is cleared. -/
def Settled (before after : JobEntry) : Prop :=
  after.attempts = before.attempts ∧ (after.row = before.row ∨ after.row = unlinkReplay before.row)

/-- A job that is left as it is is settled. -/
theorem Settled.refl (entry : JobEntry) : Settled entry entry := ⟨rfl, Or.inl rfl⟩

/-- Settling twice is settling. -/
theorem Settled.trans {a b c : JobEntry} (hab : Settled a b) (hbc : Settled b c) : Settled a c := by
  obtain ⟨hattempts, hab⟩ := hab
  obtain ⟨hattempts', hbc⟩ := hbc
  refine ⟨hattempts'.trans hattempts, ?_⟩
  rcases hab with hab | hab <;> rcases hbc with hbc | hbc <;> simp [hab, hbc, unlinkReplay]

/-- A settled job keeps its status. -/
theorem Settled.status_eq {before after : JobEntry} (h : Settled before after) :
    after.row.status = before.row.status := by
  rcases h.2 with h | h <;> simp [h, unlinkReplay]

/-- A job that has settled stays purgeable. -/
theorem Settled.purgeable {before after : JobEntry} (h : Settled before after) {now : Timestamp}
    {args : PurgeArgs} (hp : Purgeable now args before.row) : Purgeable now args after.row := by
  rcases h.2 with h | h
  · rw [h]
    exact hp
  · rw [h]
    exact hp

/-- Only final jobs are purged. -/
theorem Purgeable.isFinal {now : Timestamp} {args : PurgeArgs} {j : JobRow}
    (h : Purgeable now args j) :
    j.status.isFinal = true := by
  rcases h with ⟨h, -⟩ | ⟨h, -⟩ | ⟨h, -⟩ <;> rw [h] <;> rfl

/-- Final states are absorbing: an operation on such a job deletes it or leaves it settled. -/
theorem JobActs.settled {op : LogEntry} {before after : JobEntry}
    (h : JobActs op (some before) (some after)) (hfinal : before.row.status.isFinal = true) :
    Settled before after := by
  cases h with
  | claimed hclaim => simp [hclaim.1, JobStatus.isFinal] at hfinal
  | extended howned => simp [howned.2, JobStatus.isFinal] at hfinal
  | returned howned => simp [howned.2, JobStatus.isFinal] at hfinal
  | completed howned => simp [howned.2, JobStatus.isFinal] at hfinal
  | failed howned => simp [howned.2, JobStatus.isFinal] at hfinal
  | recovered hexpired => simp [hexpired.1, JobStatus.isFinal] at hfinal
  | cancelled hpending => simp [hpending, JobStatus.isFinal] at hfinal
  | unlinked => exact ⟨rfl, Or.inr rfl⟩

/-- Operations that insert nothing find a job where they leave one, and settle a final one. -/
theorem Evolves.settled {events : List LogEntry} {start row : Option JobEntry}
    (h : jobDynamics.Evolves events start row)
    (hinsert : ∀ op ∈ events, ∀ id job, op.event ≠ .inserted id job) {after : JobEntry}
    (hrow : row = some after) :
    ∃ before, start = some before ∧ (before.row.status.isFinal = true → Settled before after) := by
  induction h generalizing after with
  | nil row => exact ⟨after, hrow, fun _ => .refl after⟩
  | @snoc events op start middle last _ hacts ih =>
    subst hrow
    cases middle with
    | none =>
      cases hacts
      exact absurd rfl (hinsert _ (List.mem_append_right _ (List.mem_singleton_self _)) _ _)
    | some middle =>
      obtain ⟨before, hbefore, hsettled⟩ :=
        ih (fun op' hop' => hinsert op' (List.mem_append_left _ hop')) rfl
      refine ⟨before, hbefore, fun hfinal => ?_⟩
      have hmiddle := hsettled hfinal
      exact hmiddle.trans (JobActs.settled hacts (by rw [hmiddle.status_eq]; exact hfinal))

/-- What a transaction relies on at the point its program has reached. -/
def TaskOk (s : State) (t : TxnId) (T : Txn) : Prop :=
  match T.task with
  | .claimLoop _ (.claiming _ _ _ picked) => ∀ id ∈ picked, s.jobLocks id = some t ∧
      ∃ entry, (T.view s).get id = some entry ∧ Claimable T.now entry.row
  | .claimLoop args (.finished rows) => ∀ row ∈ rows, ∃ c ∈ T.changes,
      c.event.event = .claimed ⟨t, args.worker, row⟩ args.leaseSeconds
  | .call x _ _ => x ∈ s.executions
  | .purge _ .begin => T.changes = []
  | .purge args (.deleting todo _) => ∀ p ∈ todo, (∃ c ∈ s.log, c.event.jobId = p.1) ∧
      ∀ entry, (T.view s).get p.1 = some entry → Purgeable T.now args entry.row ∧ entry.row.status = p.2
  | _ => True

/-- An open transaction: its writes are legal on the committed table and on jobs it has locked. -/
structure TxnOk (s : State) (t : TxnId) (T : Txn) : Prop where
  consistent : jobDynamics.Consistent s.jobs T.changes
  locked : ∀ c ∈ T.changes, s.jobLocks c.event.event.jobId = some t
  logOk : LogOk (s.log ++ T.changes.map Change.event)
  task : TaskOk s t T

/-- The invariant of the system. -/
structure Inv (s : State) : Prop where
  replays : jobDynamics.Replays s.log s.jobs
  logOk : LogOk s.log
  executions : ∀ x ∈ s.executions, ∃ c ∈ s.log, ∃ leaseSeconds, c.event = .claimed x leaseSeconds
  unborn : ∀ t, s.nextTxn ≤ t → s.txns t = none
  jobLocks : ∀ id t, s.jobLocks id = some t → s.txns t ≠ none
  queueLocks : ∀ q t, s.queueLocks q = some t → s.txns t ≠ none
  queueShares : ∀ q t, t ∈ s.queueShares q → s.txns t ≠ none
  ids : ∀ id, s.nextJob ≤ id → s.jobs.get id = none ∧ s.jobLocks id = none ∧ ∀ c ∈ s.log, c.event.jobId ≠ id
  txn : ∀ t T, s.txns t = some T → TxnOk s t T

/-- The open transactions were begun before the next one. -/
theorem Inv.lt_nextTxn {s : State} (h : Inv s) {t : TxnId} {T : Txn} (hT : s.txns t = some T) :
    t < s.nextTxn := by
  by_contra hge
  cases (h.unborn t (Nat.le_of_not_lt hge)).symm.trans hT

/-- What a transaction keeps while the others move: its executions, its locks and the rows under
them, and a final state of any job that has ever been committed. -/
structure Frame (s s' : State) (t : TxnId) : Prop where
  executions : ∀ x ∈ s.executions, x ∈ s'.executions
  log : ∀ c ∈ s.log, c ∈ s'.log
  locks : ∀ id, s.jobLocks id = some t → s'.jobLocks id = some t
  rows : ∀ id, s.jobLocks id = some t → s'.jobs.get id = s.jobs.get id
  settled : ∀ id, (∃ c ∈ s.log, c.event.jobId = id) → ∀ after, s'.jobs.get id = some after →
    ∃ before, s.jobs.get id = some before ∧ (before.row.status.isFinal = true → Settled before after)

/-- The view of a transaction changes at most where the committed table does. -/
theorem TxnOk.view_congr {s s' : State} {t : TxnId} {T : Txn} (hT : TxnOk s t T) (hf : Frame s s' t)
    {id : JobId} (hid : s'.jobs.get id = s.jobs.get id) : (T.view s').get id = (T.view s).get id :=
  (hT.consistent.congr fun c hc => hf.rows _ (hT.locked c hc)).2 id hid

/-- The jobs a transaction has not locked look to it as committed. -/
theorem TxnOk.view_of_unlocked {s : State} {t : TxnId} {T : Txn} (hT : TxnOk s t T) {id : JobId}
    (hid : s.jobLocks id ≠ some t) : (T.view s).get id = s.jobs.get id :=
  hT.consistent.get_of_untouched fun c hc heq => hid (heq ▸ hT.locked c hc)

/-- An open transaction stays in order while the others move. -/
theorem TxnOk.frame {s s' : State} {t : TxnId} {T : Txn} (hT : TxnOk s t T) (hf : Frame s s' t)
    (hlog : LogOk (s'.log ++ T.changes.map Change.event)) : TxnOk s' t T := by
  have hcongr := hT.consistent.congr fun c hc => hf.rows _ (hT.locked c hc)
  refine ⟨hcongr.1, fun c hc => hf.locks _ (hT.locked c hc), hlog, ?_⟩
  have htask := hT.task
  unfold TaskOk at htask ⊢
  split
  · intro id hid
    simp only [*] at htask
    obtain ⟨hlock, entry, hget, hclaim⟩ := htask id hid
    exact ⟨hf.locks id hlock, entry, (hT.view_congr hf (hf.rows id hlock)).trans hget, hclaim⟩
  · simpa only [*] using htask
  · simp only [*] at htask
    exact hf.executions _ htask
  · simpa only [*] using htask
  · intro p hp
    simp only [*] at htask
    obtain ⟨⟨c, hc, hcid⟩, hpurge⟩ := htask p hp
    refine ⟨⟨c, hf.log c hc, hcid⟩, fun after hafter => ?_⟩
    by_cases hlock : s.jobLocks p.1 = some t
    · exact hpurge after ((hT.view_congr hf (hf.rows p.1 hlock)).symm.trans hafter)
    · -- An unlocked row may have been settled further by others, which keeps it purgeable.
      have hafter' : s'.jobs.get p.1 = some after := by
        have huntouched : ∀ c ∈ T.changes, jobDynamics.target c.event ≠ p.1 :=
          fun c hc heq => hlock (heq ▸ hT.locked c hc)
        rw [← hafter]
        exact (hcongr.1.get_of_untouched huntouched).symm
      obtain ⟨before, hbefore, hsettled⟩ := hf.settled p.1 ⟨c, hc, hcid⟩ after hafter'
      obtain ⟨hp, hstatus⟩ := hpurge before ((hT.view_of_unlocked hlock).trans hbefore)
      have hs := hsettled hp.isFinal
      exact ⟨hs.purgeable hp, hs.status_eq.trans hstatus⟩
  · trivial

/-- A job that a transaction sees has an id that has been drawn. -/
theorem Inv.lt_nextJob {s : State} (h : Inv s) {t : TxnId} {T : Txn} (hT : TxnOk s t T) {id : JobId}
    {entry : JobEntry} (hget : (T.view s).get id = some entry) : id < s.nextJob := by
  by_contra hge
  obtain ⟨hnone, hlock, -⟩ := h.ids id (Nat.le_of_not_lt hge)
  rw [hT.view_of_unlocked (by simp [hlock]), hnone] at hget
  cases hget

/-! ## One step of a statement -/

/-- What a step of a statement has to respect: it takes only free locks, and it writes legal and
admissible versions of jobs it has locked. -/
structure EffectOk (s : State) (t : TxnId) (T : Txn) (effect : Effect) : Prop where
  jobLock : ∀ id, effect.jobLock = some id → Free s.jobLocks id t ∧ id < s.nextJob + effect.newJobs
  queueLock : ∀ q, effect.queueLock = some q → Free s.queueLocks q t
  held : ∀ c ∈ effect.changes,
    s.jobLocks c.event.event.jobId = some t ∨ effect.jobLock = some c.event.event.jobId
  consistent : jobDynamics.Consistent (T.view s) effect.changes
  logOk : LogOk (s.log ++ (T.changes ++ effect.changes).map Change.event)
  task : TaskOk (s.perform t T effect) t (T.after effect)

/-- The view of a transaction after one of its steps. -/
theorem view_perform (s : State) (t : TxnId) (T : Txn) (effect : Effect) :
    (T.after effect).view (s.perform t T effect) = jobDynamics.applyChanges (T.view s) effect.changes := by
  simp only [Txn.view, Txn.after, State.perform, Dynamics.applyChanges_append]

/-- Taking a free lock leaves the locks of the others alone. -/
theorem takeLock_of_other {α : Type} [DecidableEq α] {locks : α → Option TxnId} {t t' : TxnId}
    {lock : Option α} (hfree : ∀ k, lock = some k → Free locks k t) (hne : t' ≠ t) (k : α) :
    takeLock locks t lock k = some t' ↔ locks k = some t' := by
  cases lock with
  | none => rfl
  | some k₀ =>
    by_cases hk : k = k₀
    · subst hk
      rcases hfree k rfl with h | h <;> simp [takeLock, h, Ne.symm hne]
    · simp [takeLock, hk]

/-- A transaction keeps the locks it has. -/
theorem takeLock_of_held {α : Type} [DecidableEq α] {locks : α → Option TxnId} {t : TxnId}
    (lock : Option α) {k : α} (h : locks k = some t) : takeLock locks t lock k = some t := by
  cases lock with
  | none => exact h
  | some k₀ =>
    by_cases hk : k = k₀
    · simp [takeLock, hk]
    · simpa [takeLock, hk] using h

/-- A lock that is taken is held. -/
theorem takeLock_self {α : Type} [DecidableEq α] (locks : α → Option TxnId) (t : TxnId) (k : α) :
    takeLock locks t (some k) k = some t := by
  simp [takeLock]

/-- The locks of the others survive the end of a transaction. -/
theorem releaseLocks_eq_some {α : Type} {locks : α → Option TxnId} {t t' : TxnId} {k : α} :
    releaseLocks locks t k = some t' ↔ locks k = some t' ∧ t' ≠ t := by
  unfold releaseLocks
  split
  · simp_all [eq_comm]
  · rename_i h
    exact ⟨fun hk => ⟨hk, fun ht => h (ht ▸ hk)⟩, fun hk => hk.1⟩

/-- The test is one of the transaction that holds the lock, if it is another one. -/
theorem State.passes_eq_true {α : Type} {s : State} {locks : α → Option TxnId} {k : α} {t : TxnId} {test : Txn → Bool} :
    s.passes locks k t test = true ↔
      ∀ holder H, locks k = some holder → holder ≠ t → s.txns holder = some H → test H = true := by
  unfold State.passes
  cases hlock : locks k with
  | none => simp
  | some holder =>
    simp only [Option.some.injEq, forall_comm (α := Txn), forall_eq', Bool.or_eq_true, decide_eq_true_eq]
    by_cases hmine : holder = t
    · simp [hmine]
    · cases hopen : s.txns holder with
      | none => simp [hmine]
      | some H => simp [hmine]

/-- Who shares a lock after a step. -/
theorem mem_takeShare {α : Type} [DecidableEq α] {shares : α → List TxnId} {t u : TxnId} {asked : Option α} {k : α} :
    u ∈ takeShare shares t asked k ↔ u ∈ shares k ∨ asked = some k ∧ u = t := by
  cases asked with
  | none => simp [takeShare]
  | some k₀ =>
    by_cases hk : k = k₀
    · subst hk
      simp [takeShare, or_comm]
    · simp [takeShare, hk, Ne.symm hk]

/-- Who shares a lock after the end of a transaction. -/
theorem mem_releaseShares {α : Type} {shares : α → List TxnId} {t u : TxnId} {k : α} :
    u ∈ releaseShares shares t k ↔ u ∈ shares k ∧ u ≠ t := by
  simp [releaseShares]

/-- The others do not notice a step of a statement. -/
theorem EffectOk.frame {s : State} {t t' : TxnId} {T : Txn} {effect : Effect}
    (he : EffectOk s t T effect) (hne : t' ≠ t) : Frame s (s.perform t T effect) t' where
  executions _ hx := hx
  log _ hc := hc
  locks id hid := (takeLock_of_other (fun k hk => (he.jobLock k hk).1) hne id).mpr hid
  rows _ _ := rfl
  settled _ _ after hafter := ⟨after, hafter, fun _ => .refl after⟩

/-- A step that respects the locks keeps the invariant. -/
theorem Inv.perform {s : State} {t : TxnId} {T : Txn} {effect : Effect} (h : Inv s)
    (hT : s.txns t = some T) (he : EffectOk s t T effect) : Inv (s.perform t T effect) := by
  have hlive (t' : TxnId) (ht' : t' = t ∨ s.txns t' ≠ none) : (s.perform t T effect).txns t' ≠ none := by
    by_cases heq : t' = t
    · simp [State.perform, heq]
    · simpa [State.perform, heq] using ht'
  have hholder {α : Type} [DecidableEq α] {locks : α → Option TxnId} {lock : Option α}
      (hfree : ∀ k, lock = some k → Free locks k t) (hold : ∀ k t', locks k = some t' → s.txns t' ≠ none)
      (k : α) (t' : TxnId) (hk : takeLock locks t lock k = some t') :
      (s.perform t T effect).txns t' ≠ none := by
    refine hlive t' (or_iff_not_imp_left.mpr fun hne => ?_)
    exact hold k t' ((takeLock_of_other hfree hne k).mp hk)
  refine ⟨h.replays, h.logOk, h.executions, fun t' ht' => ?_,
    hholder (fun k hk => (he.jobLock k hk).1) h.jobLocks, hholder he.queueLock h.queueLocks,
    fun q t' hk => hlive t' ((mem_takeShare.mp hk).symm.imp And.right (h.queueShares q t')),
    fun id hid => ?_, fun t' T' hT' => ?_⟩
  · have hne : t' ≠ t := by
      rintro rfl
      simp [h.unborn t' ht'] at hT
    simpa [State.perform, hne] using h.unborn t' ht'
  · have hlt : s.nextJob + effect.newJobs ≤ id := hid
    obtain ⟨hjob, hlock, hlog⟩ := h.ids id (le_trans (Nat.le_add_right _ _) hlt)
    refine ⟨hjob, ?_, hlog⟩
    change takeLock s.jobLocks t effect.jobLock id = none
    cases hj : effect.jobLock with
    | none => exact hlock
    | some id' =>
      have hne : id ≠ id' := ((he.jobLock id' hj).2.trans_le hlt).ne'
      simpa [takeLock, hne] using hlock
  · by_cases hne : t' = t
    · subst hne
      obtain rfl : T.after effect = T' := by simpa [State.perform] using hT'
      refine ⟨?_, fun c hc => ?_, ?_, he.task⟩
      · exact (Dynamics.consistent_append _ _ _).mpr ⟨(h.txn t' T hT).consistent, he.consistent⟩
      · change takeLock s.jobLocks t' effect.jobLock _ = _
        rcases List.mem_append.mp hc with hold | hnew
        · exact takeLock_of_held _ ((h.txn t' T hT).locked c hold)
        · rcases he.held c hnew with hheld | hlock
          · exact takeLock_of_held _ hheld
          · rw [hlock]
            exact takeLock_self _ _ _
      · exact he.logOk
    · have hT'' : s.txns t' = some T' := by simpa [State.perform, hne] using hT'
      exact (h.txn t' T' hT'').frame (he.frame hne) (h.txn t' T' hT'').logOk

/-! ## The end of a transaction -/

/-- The others do not notice a rollback. -/
theorem frame_close (s : State) {t t' : TxnId} (hne : t' ≠ t) : Frame s (s.close t) t' where
  executions _ hx := hx
  log _ hc := hc
  locks _ hid := releaseLocks_eq_some.mpr ⟨hid, hne⟩
  rows _ _ := rfl
  settled _ _ after hafter := ⟨after, hafter, fun _ => .refl after⟩

/-- A transaction that writes under its locks changes no row that another one has locked. -/
theorem TxnOk.view_of_other {s : State} {t t' : TxnId} {T : Txn} (hT : TxnOk s t T) (hne : t' ≠ t)
    {id : JobId} (hid : s.jobLocks id = some t') : (T.view s).get id = s.jobs.get id :=
  hT.view_of_unlocked (by simp [hid, hne])

/-- A job that has been logged is not inserted again. -/
theorem TxnOk.not_inserted {s : State} {t : TxnId} {T : Txn} (hT : TxnOk s t T) {id : JobId}
    (hid : ∃ c ∈ s.log, c.event.jobId = id) {op : LogEntry}
    (hop : op ∈ (T.changes.map Change.event).filter fun op => jobDynamics.target op = id)
    (id' : JobId) (job : NewJob) : op.event ≠ .inserted id' job := by
  intro hevent
  obtain ⟨hmem, htarget⟩ := List.mem_filter.mp hop
  obtain ⟨pre, post, hsplit⟩ := List.append_of_mem hmem
  have hfresh := (hT.logOk (s.log ++ pre) op post (by simp [hsplit])).fresh id' job hevent
  obtain ⟨c, hc, hcid⟩ := hid
  have htarget' : op.event.jobId = id := of_decide_eq_true htarget
  rw [hevent] at htarget'
  exact hfresh c (List.mem_append_left _ hc) (hcid.trans htarget'.symm)

/-- Of a job that has been logged a commit shows what it showed before, or a later version. -/
theorem TxnOk.view_settled {s : State} {t : TxnId} {T : Txn} (hT : TxnOk s t T) {id : JobId}
    (hid : ∃ c ∈ s.log, c.event.jobId = id) {after : JobEntry}
    (hafter : (T.view s).get id = some after) :
    ∃ before, s.jobs.get id = some before ∧ (before.row.status.isFinal = true → Settled before after) :=
  Evolves.settled (hT.consistent.evolves id) (fun _ hop => hT.not_inserted hid hop) hafter

/-- The others keep their locked rows and final jobs through a commit. -/
theorem TxnOk.frame_commit {s : State} {t t' : TxnId} {T : Txn} (hT : TxnOk s t T) (hne : t' ≠ t) :
    Frame s (s.commit t T) t' where
  executions _ hx := List.mem_append_left _ hx
  log _ hc := List.mem_append_left _ hc
  locks _ hid := releaseLocks_eq_some.mpr ⟨hid, hne⟩
  rows _ hid := hT.view_of_other hne hid
  settled _ hid _ hafter := hT.view_settled hid hafter

/-- The open transactions after one of them has ended are the others. -/
theorem txns_close {s : State} {t t' : TxnId} {T' : Txn} (h : (s.close t).txns t' = some T') :
    t' ≠ t ∧ s.txns t' = some T' := by
  by_cases hne : t' = t
  · simp [State.close, hne] at h
  · exact ⟨hne, by simpa [State.close, hne] using h⟩

/-- The holder of a lock after the end of a transaction is one of the others, and open. -/
theorem txns_close_ne_none {s : State} {t t' : TxnId} {α : Type} {locks : α → Option TxnId} {k : α}
    (hold : ∀ k t', locks k = some t' → s.txns t' ≠ none) (hk : releaseLocks locks t k = some t') :
    (s.close t).txns t' ≠ none := by
  obtain ⟨hk, hne⟩ := releaseLocks_eq_some.mp hk
  simpa [State.close, hne] using hold k t' hk

/-- Who shares a lock after the end of a transaction is one of the others, and open. -/
theorem sharer_close_ne_none {s : State} {t t' : TxnId} {α : Type} {shares : α → List TxnId} {k : α}
    (hold : ∀ k t', t' ∈ shares k → s.txns t' ≠ none) (hk : t' ∈ releaseShares shares t k) :
    (s.close t).txns t' ≠ none := by
  obtain ⟨hk, hne⟩ := mem_releaseShares.mp hk
  simpa [State.close, hne] using hold k t' hk

/-- A transaction that has ended is none. -/
theorem unborn_close {s : State} (h : Inv s) {t t' : TxnId} (ht' : s.nextTxn ≤ t') :
    (s.close t).txns t' = none := by
  by_cases hne : t' = t
  · simp [State.close, hne]
  · simpa [State.close, hne] using h.unborn t' ht'

/-- An unused id stays unlocked. -/
theorem releaseLocks_eq_none {α : Type} {locks : α → Option TxnId} {t : TxnId} {k : α}
    (h : locks k = none) :
    releaseLocks locks t k = none := by
  simp [releaseLocks, h]

/-- A rollback keeps the invariant. -/
theorem Inv.close {s : State} (h : Inv s) (t : TxnId) : Inv (s.close t) where
  replays := h.replays
  logOk := h.logOk
  executions := h.executions
  unborn _ ht' := unborn_close h ht'
  jobLocks _ _ hk := txns_close_ne_none h.jobLocks hk
  queueLocks _ _ hk := txns_close_ne_none h.queueLocks hk
  queueShares _ _ hk := sharer_close_ne_none h.queueShares hk
  ids id hid := ⟨(h.ids id hid).1, releaseLocks_eq_none (h.ids id hid).2.1, (h.ids id hid).2.2⟩
  txn t' T' hT' := by
    obtain ⟨hne, hT''⟩ := txns_close hT'
    exact (h.txn t' T' hT'').frame (frame_close s hne) (h.txn t' T' hT'').logOk

/-- The executions that start with a commit are those of the claims it logs. -/
theorem TxnOk.started {s : State} {t : TxnId} {T : Txn} (hT : TxnOk s t T) {x : Execution}
    (hx : x ∈ T.task.started t) :
    ∃ c ∈ T.changes.map Change.event, ∃ leaseSeconds, c.event = .claimed x leaseSeconds := by
  have htask := hT.task
  unfold TaskOk at htask
  unfold Task.started at hx
  split at hx
  · rename_i args rows hrows
    simp only [hrows] at htask
    obtain ⟨row, hrow, rfl⟩ := List.mem_map.mp hx
    obtain ⟨c, hc, hevent⟩ := htask row hrow
    exact ⟨c.event, List.mem_map_of_mem hc, args.leaseSeconds, hevent⟩
  · cases hx

/-- A commit keeps the invariant: the committed table stays the replay of the log. -/
theorem Inv.commit {s : State} (h : Inv s) {t : TxnId} {T : Txn} (hopen : s.txns t = some T) :
    Inv (s.commit t T) := by
  have hT := h.txn t T hopen
  refine ⟨h.replays.commit hT.consistent, hT.logOk, fun x hx => ?_, fun _ ht' => unborn_close h ht',
    fun _ _ hk => txns_close_ne_none h.jobLocks hk, fun _ _ hk => txns_close_ne_none h.queueLocks hk,
    fun _ _ hk => sharer_close_ne_none h.queueShares hk, fun id hid => ?_, fun t' T' hT' => ?_⟩
  · rcases List.mem_append.mp hx with hold | hnew
    · obtain ⟨c, hc, hclaim⟩ := h.executions x hold
      exact ⟨c, List.mem_append_left _ hc, hclaim⟩
    · obtain ⟨c, hc, hclaim⟩ := hT.started hnew
      exact ⟨c, List.mem_append_right _ hc, hclaim⟩
  · obtain ⟨hjob, hlock, hlog⟩ := h.ids id hid
    have hunlocked : s.jobLocks id ≠ some t := by simp [hlock]
    refine ⟨(hT.view_of_unlocked hunlocked).trans hjob, releaseLocks_eq_none hlock, fun c hc => ?_⟩
    rcases List.mem_append.mp hc with hold | hnew
    · exact hlog c hold
    · obtain ⟨change, hchange, rfl⟩ := List.mem_map.mp hnew
      exact fun heq => hunlocked (heq ▸ hT.locked change hchange)
  · obtain ⟨hne, hT''⟩ := txns_close (t := t) hT'
    have hother := h.txn t' T' hT''
    refine hother.frame (hT.frame_commit hne) (hT.logOk.append_of_disjoint hother.logOk ?_)
    intro a ha b hb heq
    obtain ⟨c, hc, rfl⟩ := List.mem_map.mp ha
    obtain ⟨d, hd, rfl⟩ := List.mem_map.mp hb
    have hheld := (hT.locked c hc).symm.trans ((congrArg s.jobLocks heq).trans (hother.locked d hd))
    exact hne (by simpa using hheld.symm)

/-! ## The begin of a transaction -/

/-- A new transaction keeps the invariant. -/
theorem Inv.open {s : State} (h : Inv s) {task : Task}
    (htask : ∀ s' t T, T.task = task → T.changes = [] → s'.executions = s.executions → TaskOk s' t T) :
    Inv (s.open task) := by
  have hother {t : TxnId} (hne : t ≠ s.nextTxn) : (s.open task).txns t = s.txns t := by
    simp [State.open, hne]
  have hlive {t : TxnId} (hopen : s.txns t ≠ none) : (s.open task).txns t ≠ none := by
    rwa [hother fun heq => hopen (h.unborn t heq.ge)]
  refine ⟨h.replays, h.logOk, h.executions, fun t ht => ?_, fun id t hk => hlive (h.jobLocks id t hk),
    fun q t hk => hlive (h.queueLocks q t hk), fun q t hk => hlive (h.queueShares q t hk), h.ids,
    fun t T hT => ?_⟩
  · have hlt : s.nextTxn < t := ht
    rw [hother hlt.ne']
    exact h.unborn t hlt.le
  · by_cases hne : t = s.nextTxn
    · subst hne
      obtain rfl : (⟨s.clock, task, [], []⟩ : Txn) = T := by simpa [State.open] using hT
      exact ⟨trivial, by simp, by simpa [State.open] using h.logOk, htask _ _ _ rfl rfl rfl⟩
    · rw [hother hne] at hT
      have hframe : Frame s (s.open task) t :=
        ⟨fun _ hx => hx, fun _ hc => hc, fun _ hk => hk, fun _ _ => rfl,
          fun _ _ after hafter => ⟨after, hafter, fun _ => .refl after⟩⟩
      exact (h.txn t T hT).frame hframe (h.txn t T hT).logOk

end PgRelay
