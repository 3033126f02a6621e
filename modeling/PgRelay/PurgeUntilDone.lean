import PgRelay.Purge

/-!
# Purging until done

`purge_until_done` runs batches in transactions of their own and stops after the first one that has
deleted fewer jobs than a full batch. A batch is short when its snapshot held no more jobs to purge,
but also when another purge has deleted some of the picked jobs first. In the first case nothing is
left of what the snapshot held; in the second case the jobs that were not picked may remain.
-/

namespace PgRelay

open RowStore

variable {s s' : State} {t : TxnId} {T : Txn} {effect : Effect} {args : PurgeArgs}

/-! ## The loop -/

/-- Where the loop stands. The ids are a history variable: the jobs that were to be purged in the
snapshot of its last batch. -/
inductive PurgerPc
  | looping
  | batch (t : TxnId) (eligible : List JobId)
  | returned (eligible : List JobId)
  | raised
  deriving DecidableEq

/-- A run of `purge_until_done`: its summary so far, which has the fields of a `PurgeResult`, and as a
history variable the jobs that its own commits have removed. -/
structure Purger where
  pc : PurgerPc
  summary : PurgeResult
  removed : List JobEntry

/-- Before the first batch. -/
def Purger.init : Purger := ⟨.looping, ⟨0, 0, 0⟩, []⟩

/-- The sums of the counters. -/
def PurgeResult.add (a b : PurgeResult) : PurgeResult where
  succeeded := a.succeeded + b.succeeded
  deadLetter := a.deadLetter + b.deadLetter
  cancelled := a.cancelled + b.cancelled

/-- The jobs that a purge would delete if it had no limit. -/
def eligibleJobs (now : Timestamp) (args : PurgeArgs) (jobs : JobTable) : List JobId :=
  (jobs.rows.filter fun entry => decide (Purgeable now args entry.row)).map JobEntry.id

/-- The actions of a transaction. -/
def Action.touches (t : TxnId) : Action → Bool
  | .advance u | .scan u | .enqueueMore u _ | .commit u | .rollback u => u = t
  | .tick _ | .begin _ => false

/-- The others act, or the loop does: it opens a session, its batch takes a step, commits or fails. -/
inductive PurgerAction
  | other (a : Action)
  | begin
  | advance
  | commit
  | fail

/-- One action of the system in which one process runs `purge_until_done`. -/
def purgerStep (args : PurgeArgs) (sp : State × Purger) : PurgerAction → Option (State × Purger)
  | .other a =>
    match sp.2.pc with
    | .batch t _ => if a.touches t then none else (step sp.1 a).map fun s' => (s', sp.2)
    | _ => (step sp.1 a).map fun s' => (s', sp.2)
  | .begin =>
    match sp.2.pc with
    | .looping => (step sp.1 (.begin (.purge args))).map fun s' =>
        (s', { sp.2 with pc := .batch sp.1.nextTxn [] })
    | _ => none
  | .advance =>
    match sp.2.pc with
    | .batch t eligible => (sp.1.txns t).bind fun T => (step sp.1 (.advance t)).map fun s' =>
        (s', { sp.2 with pc := .batch t (match T.task with
          | .purge _ .begin => eligibleJobs T.now args (T.view sp.1)
          | _ => eligible) })
    | _ => none
  | .commit =>
    match sp.2.pc with
    | .batch t eligible => (sp.1.txns t).bind fun T =>
        match T.task with
        | .purge _ (.finished deleted) => (step sp.1 (.commit t)).map fun s' =>
            (s', { pc := if (purgeResult deleted).total < args.batchSize then .returned eligible else .looping
                   summary := sp.2.summary.add (purgeResult deleted)
                   removed := sp.2.removed ++ removedRows sp.1.jobs s'.jobs })
        | _ => none
    | _ => none
  | .fail =>
    match sp.2.pc with
    | .batch t _ => (step sp.1 (.rollback t)).map fun s' => (s', { sp.2 with pc := .raised })
    | _ => none

/-- Whenever a batch comes to a picked job that is no longer there, its snapshot held no more jobs to
purge than it could pick. -/
def missesNothing (args : PurgeArgs) (sp : State × Purger) : PurgerAction → Bool
  | .advance =>
    match sp.2.pc with
    | .batch t eligible => (sp.1.txns t).all fun T =>
        match T.task with
        | .purge _ (.deleting ((id, _) :: _) _) =>
          ((T.view sp.1).get id).isSome || eligible.length ≤ args.batchSize
        | _ => true
    | _ => true
  | _ => true

/-! ## One batch -/

/-- What has become of the jobs that a batch found: all of them are gone or still to be visited, or
there were more than it could pick and none of those it has picked was missing. -/
def PurgePc.Covers (s : State) (T : Txn) (args : PurgeArgs) (eligible : List JobId) : PurgePc → Prop
  | .begin => True
  | .deleting todo deleted =>
    (eligible.length ≤ args.batchSize → ∀ id ∈ eligible, (T.view s).get id = none ∨ id ∈ todo.map Prod.fst) ∧
      (args.batchSize < eligible.length → deleted.length + todo.length = args.batchSize)
  | .cascading _ deleted | .finished deleted =>
    (eligible.length ≤ args.batchSize → ∀ id ∈ eligible, (T.view s).get id = none) ∧
      (args.batchSize < eligible.length → deleted.length = args.batchSize)

/-- A batch picks everything that fits. -/
theorem mem_purgeCandidates_of_le {now : Timestamp} {jobs : JobTable}
    (hle : (eligibleJobs now args jobs).length ≤ args.batchSize) {id : JobId}
    (hid : id ∈ eligibleJobs now args jobs) : id ∈ (purgeCandidates now args jobs).map Prod.fst := by
  unfold eligibleJobs at hle hid
  rw [List.length_map] at hle
  unfold purgeCandidates
  rw [List.take_of_length_le (by rwa [List.length_insertionSort]), List.map_map]
  obtain ⟨entry, hentry, rfl⟩ := List.mem_map.mp hid
  exact List.mem_map.mpr ⟨entry, (List.mem_insertionSort _).mpr hentry, rfl⟩

/-- A batch that finds too many picks as many as it may. -/
theorem length_purgeCandidates_of_lt {now : Timestamp} {jobs : JobTable}
    (hlt : args.batchSize < (eligibleJobs now args jobs).length) :
    (purgeCandidates now args jobs).length = args.batchSize := by
  unfold eligibleJobs at hlt
  rw [List.length_map] at hlt
  simp [purgeCandidates, List.length_insertionSort, hlt.le]

/-- A job that a transaction sees to be gone stays so. -/
theorem Reachable.view_stays_none {a : Action} (h : Reachable s) (hs : step s a = some s')
    (hT : s.txns t = some T) (hT' : s'.txns t = some T) (he : Elsewhere s s' t T) {id : JobId}
    (hlogged : ∃ c ∈ s.log, c.event.jobId = id) (hnone : (T.view s).get id = none) :
    (T.view s').get id = none := by
  by_cases hlock : s.jobLocks id = some t
  · rw [he.view id (he.jobs id hlock), hnone]
  · rw [(h.inv.txn t T hT).view_of_unlocked hlock] at hnone
    rw [((h.tail hs).inv.txn t T hT').view_of_unlocked fun hheld => hlock ((he.jobLocks id).mp hheld)]
    cases hafter : s'.jobs.get id with
    | none => rfl
    | some after =>
      obtain ⟨before, hbefore, -⟩ := h.keeps_of_step hs hlogged hafter
      cases hnone.symm.trans hbefore

/-- The others bring no job back that a batch has found. -/
theorem PurgePc.Covers.elsewhere {a : Action} {eligible : List JobId} {pc : PurgePc}
    (h : pc.Covers s T args eligible) (hreach : Reachable s) (hs : step s a = some s')
    (hT : s.txns t = some T) (hT' : s'.txns t = some T) (he : Elsewhere s s' t T)
    (hlogged : ∀ id ∈ eligible, ∃ c ∈ s.log, c.event.jobId = id) : pc.Covers s' T args eligible := by
  have hstays {id : JobId} (hid : id ∈ eligible) := hreach.view_stays_none hs hT hT' he (hlogged id hid)
  cases pc with
  | begin => trivial
  | deleting todo deleted => exact ⟨fun hle id hid => (h.1 hle id hid).imp_left (hstays hid), h.2⟩
  | cascading todo deleted => exact ⟨fun hle id hid => hstays hid (h.1 hle id hid), h.2⟩
  | finished deleted => exact ⟨fun hle id hid => hstays hid (h.1 hle id hid), h.2⟩

/-- The jobs a batch has found, once it has taken its snapshot. -/
def PurgePc.eligible (s : State) (T : Txn) (args : PurgeArgs) (eligible : List JobId) : PurgePc → List JobId
  | .begin => eligibleJobs T.now args (T.view s)
  | _ => eligible

/-- A job that is gone stays so through the steps of its batch. -/
theorem view_stays_none_of_purge {pc : PurgePc} (hok : EffectOk s t T effect)
    (he : purgeStatement s t T args pc = some effect) {id : JobId} (hnone : (T.view s).get id = none) :
    ((T.after effect).view (s.perform t T effect)).get id = none := by
  have hquiet (hchanges : effect.changes = []) :
      ((T.after effect).view (s.perform t T effect)).get id = none := by
    rw [view_perform_of_nil hchanges, hnone]
  unfold purgeStatement at he
  split at he
  · cases he; exact hquiet rfl
  · cases he; exact hquiet rfl
  · split_ifs at he
    split at he
    · cases he; exact hquiet rfl
    · cases he
      rw [hok.get_view rfl]
      split_ifs
      · rfl
      · exact hnone
  · cases he; exact hquiet rfl
  · split_ifs at he
    split at he
    · cases he; exact hquiet rfl
    · rename_i entry hget
      cases he
      rw [hok.get_view rfl, if_neg]
      · exact hnone
      · rintro rfl
        cases hnone.symm.trans hget
  · cases he

/-- Every step of a batch that misses nothing covers what the batch has found. -/
theorem PurgePc.Covers.step {eligible : List JobId} {pc : PurgePc} (h : pc.Covers s T args eligible)
    (hok : EffectOk s t T effect) (hmisses : ∀ id status todo deleted, pc = .deleting ((id, status) :: todo) deleted →
      (T.view s).get id = none → eligible.length ≤ args.batchSize)
    (he : purgeStatement s t T args pc = some effect) : ∃ pc', effect.task = .purge args pc' ∧
      pc'.Covers (s.perform t T effect) (T.after effect) args (pc.eligible s T args eligible) := by
  have hstays {id : JobId} (hnone : (T.view s).get id = none) :
      ((T.after effect).view (s.perform t T effect)).get id = none := view_stays_none_of_purge hok he hnone
  unfold purgeStatement at he
  split at he
  · cases he
    refine ⟨_, rfl, fun hle id hid => .inr (mem_purgeCandidates_of_le hle hid), fun hlt => ?_⟩
    simpa using length_purgeCandidates_of_lt hlt
  · cases he
    refine ⟨_, rfl, fun hle id hid => hstays ((h.1 hle id hid).resolve_right (by simp)), fun hlt => ?_⟩
    simpa using h.2 hlt
  · rename_i id status todo deleted
    split_ifs at he
    split at he
    · rename_i hnone
      cases he
      refine ⟨_, rfl, fun hle id' hid' => ?_, fun hlt => ?_⟩
      · rcases h.1 hle id' hid' with hgone | htodo
        · exact .inl (hstays hgone)
        · rcases List.mem_cons.mp htodo with rfl | hrest
          · exact .inl (hstays hnone)
          · exact .inr hrest
      · exact absurd hlt (Nat.not_lt.mpr (hmisses id status todo deleted rfl hnone))
    · cases he
      refine ⟨_, rfl, fun hle id' hid' => ?_, fun hlt => ?_⟩
      · rcases h.1 hle id' hid' with hgone | htodo
        · exact .inl (hstays hgone)
        · rcases List.mem_cons.mp htodo with rfl | hrest
          · refine .inl ?_
            rw [hok.get_view rfl]
            exact if_pos rfl
          · exact .inr hrest
      · have hcount := h.2 hlt
        simp only [List.length_cons, List.length_append, List.length_nil] at hcount ⊢
        omega
  · cases he
    exact ⟨_, rfl, fun hle id hid => hstays (h.1 hle id hid), h.2⟩
  · split_ifs at he
    split at he
    · cases he
      exact ⟨_, rfl, fun hle id hid => hstays (h.1 hle id hid), h.2⟩
    · cases he
      exact ⟨_, rfl, fun hle id hid => hstays (h.1 hle id hid), h.2⟩
  · cases he

/-! ## The whole loop -/

/-- An action of the others leaves an open transaction as it is. -/
theorem Reachable.untouched {a : Action} (h : Reachable s) (hs : step s a = some s') (hT : s.txns t = some T)
    (ha : a.touches t = false) : s'.txns t = some T ∧ Elsewhere s s' t T := by
  have hT' : s'.txns t = some T := by
    rcases step_cases hs with ⟨elapsed, rfl, rfl⟩ | ⟨request, task, rfl, hr, rfl⟩ |
      ⟨u, U, effect, hU, he, rfl⟩ | ⟨u, U, rfl, hU, -, rfl⟩ | ⟨u, U, rfl, -, rfl⟩
    · exact hT
    · have hne : t ≠ s.nextTxn := by
        rintro rfl
        cases (h.inv.unborn _ le_rfl).symm.trans hT
      simpa [State.open, hne] using hT
    · have hne : t ≠ u := by
        rintro rfl
        rcases he with ⟨rfl, -⟩ | ⟨rfl, -⟩ | ⟨job, rfl, -⟩ <;> simp [Action.touches] at ha
      simpa [State.perform, hne] using hT
    · have hne : t ≠ u := by
        rintro rfl
        simp [Action.touches] at ha
      simpa [State.commit, State.close, hne] using hT
    · have hne : t ≠ u := by
        rintro rfl
        simp [Action.touches] at ha
      simpa [State.close, hne] using hT
  rcases h.step_txn hs hT' with ⟨-, helse⟩ | ⟨request, task, -, -, rfl, -, -⟩ |
    ⟨U, effect, -, he, -, -⟩
  · exact ⟨hT', helse⟩
  · cases (h.inv.unborn _ le_rfl).symm.trans hT
  · rcases he with ⟨rfl, -⟩ | ⟨rfl, -⟩ | ⟨job, rfl, -⟩ <;> simp [Action.touches] at ha

/-- Where an action leads. -/
theorem purgerStep_cases {p p' : Purger} {act : PurgerAction}
    (h : purgerStep args (s, p) act = some (s', p')) :
    (∃ a, step s a = some s' ∧ p' = p ∧ ∀ t eligible, p.pc = .batch t eligible → a.touches t = false) ∨
    (step s (.begin (.purge args)) = some s' ∧ p' = { p with pc := .batch s.nextTxn [] }) ∨
    (∃ t eligible T, act = .advance ∧ p.pc = .batch t eligible ∧ s.txns t = some T ∧
      step s (.advance t) = some s' ∧ p' = { p with pc := .batch t (match T.task with
        | .purge _ .begin => eligibleJobs T.now args (T.view s)
        | _ => eligible) }) ∨
    (∃ t eligible T args' deleted, p.pc = .batch t eligible ∧ s.txns t = some T ∧
      T.task = .purge args' (.finished deleted) ∧ step s (.commit t) = some s' ∧
      p' = { pc := if (purgeResult deleted).total < args.batchSize then .returned eligible else .looping
             summary := p.summary.add (purgeResult deleted)
             removed := p.removed ++ removedRows s.jobs s'.jobs }) ∨
    (∃ t, step s (.rollback t) = some s' ∧ p' = { p with pc := .raised }) := by
  cases act with
  | other a =>
    simp only [purgerStep] at h
    split at h
    · rename_i t eligible hpc
      split_ifs at h with ha
      obtain ⟨_, hs, heq⟩ := Option.map_eq_some_iff.mp h
      obtain ⟨rfl, rfl⟩ := Prod.mk.inj heq
      refine .inl ⟨a, hs, rfl, fun t' eligible' hpc' => ?_⟩
      obtain ⟨rfl, -⟩ := PurgerPc.batch.inj (hpc.symm.trans hpc')
      exact Bool.eq_false_of_not_eq_true ha
    · rename_i hpc
      obtain ⟨_, hs, heq⟩ := Option.map_eq_some_iff.mp h
      obtain ⟨rfl, rfl⟩ := Prod.mk.inj heq
      exact .inl ⟨a, hs, rfl, fun t' eligible' hpc' => absurd hpc' (hpc t' eligible')⟩
  | begin =>
    simp only [purgerStep] at h
    split at h
    · obtain ⟨_, hs, heq⟩ := Option.map_eq_some_iff.mp h
      obtain ⟨rfl, rfl⟩ := Prod.mk.inj heq
      exact .inr (.inl ⟨hs, rfl⟩)
    · cases h
  | advance =>
    simp only [purgerStep] at h
    split at h
    · rename_i t eligible hpc
      obtain ⟨T, hT, h⟩ := Option.bind_eq_some_iff.mp h
      obtain ⟨_, hs, heq⟩ := Option.map_eq_some_iff.mp h
      obtain ⟨rfl, rfl⟩ := Prod.mk.inj heq
      exact .inr (.inr (.inl ⟨t, eligible, T, rfl, hpc, hT, hs, rfl⟩))
    · cases h
  | commit =>
    simp only [purgerStep] at h
    split at h
    · rename_i t eligible hpc
      obtain ⟨T, hT, h⟩ := Option.bind_eq_some_iff.mp h
      split at h
      · rename_i args' deleted htask
        obtain ⟨_, hs, heq⟩ := Option.map_eq_some_iff.mp h
        obtain ⟨rfl, rfl⟩ := Prod.mk.inj heq
        exact .inr (.inr (.inr (.inl ⟨t, eligible, T, args', deleted, hpc, hT, htask, hs, rfl⟩)))
      · cases h
    · cases h
  | fail =>
    simp only [purgerStep] at h
    split at h
    · rename_i t eligible hpc
      obtain ⟨_, hs, heq⟩ := Option.map_eq_some_iff.mp h
      obtain ⟨rfl, rfl⟩ := Prod.mk.inj heq
      exact .inr (.inr (.inr (.inr ⟨t, hs, rfl⟩)))
    · cases h

/-- The summary counts what the batches of the loop have removed. -/
def Purger.Counts (p : Purger) : Prop := p.summary = purgeResult (p.removed.map fun e => e.row.status)

/-- The counts of two batches add up. -/
theorem add_purgeResult (a b : List JobStatus) :
    (purgeResult a).add (purgeResult b) = purgeResult (a ++ b) := by
  simp only [PurgeResult.add, purgeResult, List.count_append]

/-- A commit of a batch removes as many jobs of each status as it has counted. -/
theorem Reachable.purgeResult_eq (h : Reachable s) (hT : s.txns t = some T) {deleted : List JobStatus}
    (htask : T.task = .purge args (.finished deleted)) (hs : step s (.commit t) = some s') :
    purgeResult deleted = purgeResult ((removedRows s.jobs s'.jobs).map fun e => e.row.status) ∧
      (purgeResult deleted).total = deleted.length ∧ s' = s.commit t T := by
  obtain ⟨gone, hpurging, rfl, -⟩ := h.purgeFollows hT args _ htask
  have hcommit : s' = s.commit t T := by
    simp only [step, hT, Option.bind_some, htask, Task.committable, if_pos, Option.some.injEq] at hs
    exact hs.symm
  subst hcommit
  refine ⟨purgeResult_of_perm (hpurging.perm_removedRows.symm.map _), ?_, rfl⟩
  rw [total_purgeResult (fun e he => (hpurging.deleted e he).2.2.2), List.length_map]

/-- Every action keeps the summary in step with the removed rows. -/
theorem Purger.Counts.step {p p' : Purger} {act : PurgerAction} (h : p.Counts) (hreach : Reachable s)
    (hact : purgerStep args (s, p) act = some (s', p')) : Reachable s' ∧ p'.Counts := by
  rcases purgerStep_cases hact with ⟨a, hs, rfl, -⟩ | ⟨hs, rfl⟩ | ⟨t, eligible, T, -, -, -, hs, rfl⟩ |
    ⟨t, eligible, T, args', deleted, -, hT, htask, hs, rfl⟩ | ⟨t, hs, rfl⟩
  · exact ⟨hreach.tail hs, h⟩
  · exact ⟨hreach.tail hs, h⟩
  · exact ⟨hreach.tail hs, h⟩
  · refine ⟨hreach.tail hs, ?_⟩
    have hcounts : p.summary = _ := h
    simp only [Purger.Counts, List.map_append, hcounts, ← add_purgeResult]
    rw [(hreach.purgeResult_eq hT htask hs).1]
  · exact ⟨hreach.tail hs, h⟩

/-- What the loop relies on: its batch covers what it has found, and once it has returned nothing is
left of that. -/
def PurgerPc.Ok (args : PurgeArgs) (s : State) : PurgerPc → Prop
  | .looping | .raised => True
  | .batch t eligible => (∃ T pc, s.txns t = some T ∧ T.task = .purge args pc ∧ pc.Covers s T args eligible) ∧
      ∀ id ∈ eligible, ∃ c ∈ s.log, c.event.jobId = id
  | .returned eligible => ∀ id ∈ eligible, (∃ c ∈ s.log, c.event.jobId = id) ∧ s.jobs.get id = none

/-- What has been logged stays logged. -/
theorem logged_of_step {a : Action} (hs : step s a = some s') {id : JobId}
    (h : ∃ c ∈ s.log, c.event.jobId = id) : ∃ c ∈ s'.log, c.event.jobId = id := by
  obtain ⟨c, hc, hid⟩ := h
  rcases jobs_of_step hs with ⟨t, T, -, -, -, rfl⟩ | ⟨-, -, hlog⟩
  · exact ⟨c, List.mem_append_left _ hc, hid⟩
  · exact ⟨c, hlog ▸ hc, hid⟩

/-- The jobs a batch finds have been committed. -/
theorem Reachable.logged_eligibleJobs (h : Reachable s) (hT : s.txns t = some T)
    (htask : T.task = .purge args .begin) {id : JobId} (hid : id ∈ eligibleJobs T.now args (T.view s)) :
    ∃ c ∈ s.log, c.event.jobId = id := by
  have hview : T.view s = s.jobs := by
    have hnil : T.changes = [] := h.purgeFollows hT args _ htask
    rw [Txn.view, hnil]
    rfl
  rw [hview] at hid
  obtain ⟨entry, hentry, rfl⟩ := List.mem_map.mp hid
  exact h.inv.logged (Table.get_of_mem (List.mem_filter.mp hentry).1)

/-- An action of the others keeps what the loop relies on. -/
theorem PurgerPc.Ok.other {pc : PurgerPc} {a : Action} (h : pc.Ok args s) (hreach : Reachable s)
    (hs : step s a = some s') (ha : ∀ t eligible, pc = .batch t eligible → a.touches t = false) :
    pc.Ok args s' := by
  cases pc with
  | looping => trivial
  | raised => trivial
  | batch t eligible =>
    obtain ⟨⟨T, pc, hT, htask, hcovers⟩, hlogged⟩ := h
    obtain ⟨hT', helse⟩ := hreach.untouched hs hT (ha t eligible rfl)
    refine ⟨⟨T, pc, hT', htask, hcovers.elsewhere hreach hs hT hT' helse hlogged⟩, fun id hid => ?_⟩
    exact logged_of_step hs (hlogged id hid)
  | returned eligible =>
    intro id hid
    obtain ⟨hlogged, hnone⟩ := h id hid
    refine ⟨logged_of_step hs hlogged, ?_⟩
    cases hafter : s'.jobs.get id with
    | none => rfl
    | some after =>
      obtain ⟨before, hbefore, -⟩ := hreach.keeps_of_step hs hlogged hafter
      cases hnone.symm.trans hbefore

/-- Every action that misses nothing keeps what the loop relies on. -/
theorem PurgerPc.Ok.step {p p' : Purger} {act : PurgerAction} (h : p.pc.Ok args s) (hreach : Reachable s)
    (hok : missesNothing args (s, p) act = true) (hact : purgerStep args (s, p) act = some (s', p')) :
    p'.pc.Ok args s' := by
  rcases purgerStep_cases hact with ⟨a, hs, rfl, ha⟩ | ⟨hs, rfl⟩ | ⟨t, eligible, T, rfl, hpc, hT, hs, rfl⟩ |
    ⟨t, eligible, T, args', deleted, hpc, hT, htask, hs, rfl⟩ | ⟨t, hs, rfl⟩
  · exact h.other hreach hs ha
  · obtain rfl : s.open (.purge args .begin) = s' := by simpa [PgRelay.step, Request.task] using hs
    exact ⟨⟨_, .begin, Function.update_self .., rfl, trivial⟩, by simp⟩
  · rw [hpc] at h
    obtain ⟨⟨U, pc, hU, htask, hcovers⟩, hlogged⟩ := h
    obtain rfl := Option.some.inj (hU.symm.trans hT)
    have hstep := hs
    simp only [PgRelay.step, hT, Option.bind_some, Option.map_eq_some_iff] at hstep
    obtain ⟨effect, he, rfl⟩ := hstep
    have heffect := statement_ok hreach.inv (hreach.inv.txn t U hT) he
    have hstatement : purgeStatement s t U args pc = some effect := by simpa only [statement, htask] using he
    have heligible : (match U.task with
        | .purge _ .begin => eligibleJobs U.now args (U.view s)
        | _ => eligible) = pc.eligible s U args eligible := by
      rw [htask]
      cases pc <;> rfl
    have hmisses (id : JobId) (status : JobStatus) (todo : List (JobId × JobStatus)) (deleted : List JobStatus)
        (hdeleting : pc = .deleting ((id, status) :: todo) deleted) (hnone : (U.view s).get id = none) :
        eligible.length ≤ args.batchSize := by
      subst hdeleting
      simpa [missesNothing, hpc, hT, htask, hnone] using hok
    rw [heligible]
    obtain ⟨pc', htask', hcovers'⟩ := hcovers.step heffect hmisses hstatement
    refine ⟨⟨U.after effect, pc', Function.update_self .., htask', hcovers'⟩, fun id hid => ?_⟩
    cases pc with
    | begin => exact hreach.logged_eligibleJobs hT htask hid
    | _ => exact hlogged id hid
  · obtain ⟨-, htotal, rfl⟩ := hreach.purgeResult_eq hT htask hs
    rw [hpc] at h
    obtain ⟨⟨U, pc, hU, htask', hcovers⟩, hlogged⟩ := h
    obtain rfl := Option.some.inj (hU.symm.trans hT)
    obtain ⟨rfl, rfl⟩ := Task.purge.inj (htask'.symm.trans htask)
    change PurgerPc.Ok args (s.commit t U) (if (purgeResult deleted).total < args.batchSize then _ else _)
    split_ifs with hshort
    · intro id hid
      refine ⟨logged_of_step hs (hlogged id hid), hcovers.1 ?_ id hid⟩
      by_contra hlt
      have hfull := hcovers.2 (Nat.lt_of_not_le hlt)
      omega
    · trivial
  · trivial

/-- The summary of `purge_until_done` counts in every run what its batches have removed. In every run
in which a batch that comes to a missing job has picked all that its snapshot held, nothing is left of
the snapshot of the last batch when the loop has returned. -/
theorem purge_until_done (clock : Timestamp) (args : PurgeArgs) (s : State) (p : Purger) :
    (Reaches (purgerStep args) (State.init clock, Purger.init) (s, p) →
      p.summary = purgeResult (p.removed.map fun e => e.row.status)) ∧
    (ReachesUnder (purgerStep args) (fun sp act => missesNothing args sp act = true)
        (State.init clock, Purger.init) (s, p) →
      ∀ eligible, p.pc = .returned eligible → ∀ id ∈ eligible, s.jobs.get id = none) := by
  constructor
  · intro h
    refine (h.invariant (I := fun sp : State × Purger => Reachable sp.1 ∧ sp.2.Counts)
      ⟨reachable_init clock, rfl⟩ ?_).2
    rintro ⟨s, p⟩ act ⟨s', p'⟩ ⟨hreach, hcounts⟩ - hact
    exact hcounts.step hreach hact
  · intro h
    have hok : Reachable s ∧ p.pc.Ok args s := by
      refine h.invariant (I := fun sp : State × Purger => Reachable sp.1 ∧ sp.2.pc.Ok args sp.1)
        ⟨reachable_init clock, trivial⟩ ?_
      rintro ⟨s, p⟩ act ⟨s', p'⟩ ⟨hreach, hpc⟩ hmisses hact
      refine ⟨?_, hpc.step hreach hmisses hact⟩
      rcases purgerStep_cases hact with ⟨a, hs, -⟩ | ⟨hs, -⟩ | ⟨t, eligible, T, -, -, -, hs, -⟩ |
        ⟨t, eligible, T, args', deleted, -, -, -, hs, -⟩ | ⟨t, hs, -⟩
      all_goals exact hreach.tail hs
    intro eligible hpc id hid
    rw [hpc] at hok
    exact (hok.2 id hid).2

/-- Three cancelled jobs, old enough to be purged. -/
def agedRun : List Action :=
  transaction 0 (.enqueue (handlerJob "mail" 2)) 5 ++ transaction 1 (.enqueue (handlerJob "mail" 2)) 5 ++
    transaction 2 (.enqueue (handlerJob "mail" 2)) 5 ++ transaction 3 (.cancel 0) 3 ++
    transaction 4 (.cancel 1) 3 ++ transaction 5 (.cancel 2) 3 ++ [.tick (8 * 86400 * 1000000)]

/-- The loop purges them alone, in batches of two. -/
def purgedAlone : List PurgerAction :=
  agedRun.map PurgerAction.other ++ .begin :: List.replicate 5 .advance ++ .commit :: .begin ::
    List.replicate 4 .advance ++ [.commit]

/-- A purge that nobody disturbs deletes the eligible job. -/
theorem purge_until_done_purgedAlone : ∃ s p,
    runChecked (purgerStep ⟨7, 7, 2⟩) (missesNothing ⟨7, 7, 2⟩) (State.init 0, Purger.init) purgedAlone =
      some (s, p) ∧ p.pc = .returned [2] ∧ (∀ id ∈ [2], s.jobs.get id = none) ∧
      p.summary = purgeResult (p.removed.map fun e => e.row.status) := by
  have hrun : (runChecked (purgerStep ⟨7, 7, 2⟩) (missesNothing ⟨7, 7, 2⟩) (State.init 0, Purger.init)
      purgedAlone).map (fun sp => sp.2.pc) = some (.returned [2]) := by
    decide +kernel
  obtain ⟨⟨s, p⟩, hs, hpc⟩ := Option.map_eq_some_iff.mp hrun
  have hreach := reachesUnder_of_runChecked (fun _ _ h => h) hs
  obtain ⟨hcounts, hdone⟩ := purge_until_done 0 ⟨7, 7, 2⟩ s p
  exact ⟨s, p, hs, hpc, hdone hreach [2] hpc, hcounts hreach.reaches⟩

/-- Another purge deletes the two jobs that the loop has picked from its snapshot of three. -/
def purgedByAnother : List PurgerAction :=
  agedRun.map PurgerAction.other ++ [.begin, .advance, .other (.begin (.purge ⟨7, 7, 2⟩))] ++
    List.replicate 5 (.other (.advance 7)) ++ .other (.commit 7) :: List.replicate 4 .advance ++ [.commit]

/-- Another purge takes the jobs that the batch has selected, and the loop ends with an eligible job left. -/
theorem not_done_purgedByAnother : ¬ ∀ s p,
    Reaches (purgerStep ⟨7, 7, 2⟩) (State.init 0, Purger.init) (s, p) →
      ∀ eligible, p.pc = .returned eligible → ∀ id ∈ eligible, s.jobs.get id = none := by
  intro hall
  have hrun : (run (purgerStep ⟨7, 7, 2⟩) (State.init 0, Purger.init) purgedByAnother).map
      (fun sp => (sp.2.pc, (sp.1.jobs.get 2).isSome)) = some (.returned [0, 1, 2], true) := by
    decide +kernel
  obtain ⟨⟨s, p⟩, hs, hend⟩ := Option.map_eq_some_iff.mp hrun
  obtain ⟨hpc, hleft⟩ := Prod.mk.inj hend
  rw [hall s p (reaches_of_run hs) [0, 1, 2] hpc 2 (by simp)] at hleft
  cases hleft

end PgRelay
