import PgRelay.LeaseExclusivity

/-!
# The life of a job

Claim and recovery update the rows their subqueries have locked without testing the status again,
a cancel reads first and updates later, and a purge deletes what it found without a lock. With the
locks and the tests of the newest version, every commit still changes the status of a job along one
of five transitions, final states absorb, and a claim and a cancel of the same job exclude each other.
-/

namespace PgRelay

open RowStore

/-- The transitions of the status of a job. -/
inductive StatusChange : JobStatus → JobStatus → Prop
  | claim : StatusChange .pending .leased
  | cancel : StatusChange .pending .cancelled
  | succeed : StatusChange .leased .succeeded
  | giveBack : StatusChange .leased .pending
  | bury : StatusChange .leased .deadLetter

variable {s : State} {t : TxnId} {T : Txn} {id : JobId} {op : LogEntry}

/-! ## Transitions -/

/-- One operation keeps the status or takes one of the transitions. -/
theorem JobActs.statusChange {before after : JobEntry}
    (hacts : JobActs op (some before) (some after)) :
    after.row.status = before.row.status ∨ StatusChange before.row.status after.row.status := by
  cases hacts with
  | claimed hclaim hx =>
    rw [hclaim.1, hx]
    exact Or.inr .claim
  | extended howned => exact Or.inl rfl
  | returned howned =>
    rw [howned.2]
    exact Or.inr .giveBack
  | completed howned =>
    rw [howned.2]
    exact Or.inr .succeed
  | @failed t now x args _ howned =>
    rw [howned.2]
    cases hretry : shouldRetry x.job args with
    | true =>
      simp only [failJob, failUpdate, hretry]
      exact Or.inr .giveBack
    | false =>
      simp only [failJob, failUpdate, hretry]
      exact Or.inr .bury
  | recovered hexpired =>
    rw [hexpired.1]
    by_cases hmax : before.row.maxAttempts ≤ before.row.attemptCount
    · simp only [recoverExpiredLease, recoverUpdate, hmax, if_true]
      exact Or.inr .bury
    · simp only [recoverExpiredLease, recoverUpdate, hmax, if_false]
      exact Or.inr .giveBack
  | cancelled hpending =>
    rw [hpending]
    exact Or.inr .cancel
  | unlinked => exact Or.inl rfl

/-- A relation between statuses that every operation extends holds between the ends of a run of
operations that inserts nothing. -/
theorem Evolves.status_invariant {R : JobStatus → JobStatus → Prop} {events : List LogEntry}
    {start row : Option JobEntry} (h : jobDynamics.Evolves events start row)
    (hrefl : ∀ status, R status status)
    (hinsert : ∀ op ∈ events, ∀ id job, op.event ≠ .inserted id job)
    (hstep : ∀ op ∈ events, ∀ first before after, JobActs op (some before) (some after) →
      R first before.row.status → R first after.row.status)
    {before after : JobEntry} (hstart : start = some before) (hrow : row = some after) :
    R before.row.status after.row.status := by
  induction h generalizing after with
  | nil row =>
    obtain rfl := Option.some.inj (hstart.symm.trans hrow)
    exact hrefl _
  | @snoc events op start middle last _ hacts ih =>
    subst hrow
    have hop : op ∈ events ++ [op] := List.mem_append_right _ (List.mem_singleton_self _)
    cases middle with
    | none =>
      cases hacts
      exact absurd rfl (hinsert _ hop _ _)
    | some middle =>
      refine hstep op hop _ middle after hacts (ih ?_ ?_ hstart rfl)
      · exact fun op' hop' => hinsert op' (List.mem_append_left _ hop')
      · exact fun op' hop' => hstep op' (List.mem_append_left _ hop')

/-- A recovery finds a leased job. -/
theorem JobActs.recovered_status {before after : JobEntry}
    (hacts : JobActs op (some before) (some after))
    {id : JobId} (hop : op.event = .recovered id) : before.row.status = .leased ∧
      (after.row.status = .pending ∨ after.row.status = .deadLetter) := by
  cases hacts with
  | recovered hexpired =>
    refine ⟨hexpired.1, ?_⟩
    by_cases hmax : before.row.maxAttempts ≤ before.row.attemptCount <;>
      simp [recoverExpiredLease, recoverUpdate, hmax]
  | _ => cases hop

/-- A claim makes a pending job leased. -/
theorem JobActs.claimed_status {before after : JobEntry}
    (hacts : JobActs op (some before) (some after))
    (hop : op.event.isClaim = true) : before.row.status = .pending ∧ after.row.status = .leased := by
  cases hacts with
  | claimed hclaim hx =>
    refine ⟨hclaim.1, ?_⟩
    rw [hx]
    rfl
  | _ => cases hop

/-- A claim round recovers a job, claims it, or both, and the last leaves it leased as before. -/
theorem statusChange_of_claimLoop {recoveries claims : List LogEntry} {before after : JobEntry}
    (h : jobDynamics.Evolves (recoveries ++ claims) (some before) (some after))
    (hrecovered : ∀ op ∈ recoveries, ∃ id, op.event = .recovered id)
    (hclaimed : ∀ op ∈ claims, op.event.isClaim = true) :
    after.row.status = before.row.status ∨ StatusChange before.row.status after.row.status := by
  obtain ⟨middle, hfirst, hsecond⟩ := h.of_append
  have hnotRecovered (op : LogEntry) (hop : op ∈ recoveries) (id : JobId) (job : NewJob) :
      op.event ≠ .inserted id job := by
    obtain ⟨id', hevent⟩ := hrecovered op hop
    simp [hevent]
  have hnotClaimed (op : LogEntry) (hop : op ∈ claims) (id : JobId) (job : NewJob) :
      op.event ≠ .inserted id job := by
    intro hevent
    have hclaim := hclaimed op hop
    simp [hevent, JobEvent.isClaim] at hclaim
  obtain ⟨middle, rfl, -⟩ := Evolves.settled hsecond hnotClaimed rfl
  have hrecover : middle.row.status = before.row.status ∨ before.row.status = .leased ∧
      (middle.row.status = .pending ∨ middle.row.status = .deadLetter) := by
    refine Evolves.status_invariant (R := fun a b => b = a ∨ a = .leased ∧ (b = .pending ∨ b = .deadLetter))
      hfirst (fun _ => Or.inl rfl) hnotRecovered ?_ rfl rfl
    intro op hop first m a hacts hm
    obtain ⟨id, hevent⟩ := hrecovered op hop
    obtain ⟨hleased, ha⟩ := hacts.recovered_status hevent
    rcases hm with hm | ⟨-, hm | hm⟩
    · exact Or.inr ⟨hm.symm.trans hleased, ha⟩
    · exact absurd (hm.symm.trans hleased) (by decide)
    · exact absurd (hm.symm.trans hleased) (by decide)
  have hclaim : after.row.status = middle.row.status ∨ middle.row.status = .pending ∧ after.row.status = .leased := by
    refine Evolves.status_invariant (R := fun a b => b = a ∨ a = .pending ∧ b = .leased) hsecond
      (fun _ => Or.inl rfl) hnotClaimed ?_ rfl rfl
    intro op hop first m a hacts hm
    obtain ⟨hpending, ha⟩ := hacts.claimed_status (hclaimed op hop)
    rcases hm with hm | ⟨-, hm⟩
    · exact Or.inr ⟨hm.symm.trans hpending, ha⟩
    · exact absurd (hm.symm.trans hpending) (by decide)
  rcases hrecover with hm | ⟨hb, hm | hm⟩ <;> rcases hclaim with ha | ⟨hm', ha⟩
  · exact Or.inl (ha.trans hm)
  · rw [← hm, hm', ha]
    exact Or.inr .claim
  · rw [hb, ha, hm]
    exact Or.inr .giveBack
  · exact Or.inl (ha.trans hb.symm)
  · rw [hb, ha, hm]
    exact Or.inr .bury
  · exact absurd (hm'.symm.trans hm) (by decide)

/-- The operations of a claim round: the recoveries come before the claims. -/
theorem Task.Writes.claimLoop_split {args : ClaimArgs} {pc : ClaimPc} {ops : List LogEntry}
    (h : Task.Writes t (.claimLoop args pc) (ops.map LogEntry.event)) :
    ∃ recoveries claims, ops = recoveries ++ claims ∧ (∀ op ∈ recoveries, ∃ id, op.event = .recovered id) ∧
      ∀ op ∈ claims, op.event.isClaim = true := by
  obtain ⟨ids, hevents⟩ := h
  obtain ⟨recoveries, claims, hsplit, hrecoveries, hclaims⟩ := List.map_eq_append_iff.mp hevents
  refine ⟨recoveries, claims, hsplit, fun op hop => ?_, fun op hop => ?_⟩
  · have hop' : op.event ∈ ids.map JobEvent.recovered := hrecoveries ▸ List.mem_map_of_mem hop
    obtain ⟨id, -, hevent⟩ := List.mem_map.mp hop'
    exact ⟨id, hevent.symm⟩
  · have hop' := List.mem_map_of_mem (f := LogEntry.event) hop
    rw [hclaims] at hop'
    obtain ⟨row, -, hevent⟩ := List.mem_map.mp hop'
    rw [← hevent]
    rfl

/-- At most one operation on a job. -/
theorem statusChange_of_length_le_one {events : List LogEntry} {before after : JobEntry}
    (h : jobDynamics.Evolves events (some before) (some after)) (hlength : events.length ≤ 1) :
    after.row.status = before.row.status ∨ StatusChange before.row.status after.row.status := by
  cases h with
  | nil => exact Or.inl rfl
  | @snoc events op _ middle _ hbefore hacts =>
    obtain rfl : events = [] := by simpa using hlength
    generalize hstart : some before = start at hbefore
    generalize hevents : ([] : List LogEntry) = events at hbefore
    cases hbefore with
    | nil =>
      subst hstart
      exact hacts.statusChange
    | snoc => simp at hevents

/-- A commit keeps the status of a job or takes one of the transitions. -/
theorem Reachable.statusChange_commit (h : Reachable s) (hT : s.txns t = some T)
    {before after : JobEntry}
    (hbefore : s.jobs.get id = some before) (hafter : (T.view s).get id = some after) :
    after.row.status = before.row.status ∨ StatusChange before.row.status after.row.status := by
  have htxn := h.inv.txn t T hT
  have hevolves := htxn.consistent.evolves id
  change jobDynamics.Evolves _ _ ((T.view s).get id) at hevolves
  rw [hbefore, hafter] at hevolves
  have hinsert (op : LogEntry)
      (hop : op ∈ (T.changes.map Change.event).filter fun op => jobDynamics.target op = id) (id' : JobId)
      (job : NewJob) : op.event ≠ .inserted id' job := htxn.not_inserted (h.inv.logged hbefore) hop id' job
  have hmem (op : LogEntry)
      (hop : op ∈ (T.changes.map Change.event).filter fun op => jobDynamics.target op = id) :
      op.event ∈ T.events := by
    obtain ⟨c, hc, rfl⟩ := List.mem_map.mp (List.mem_filter.mp hop).1
    exact List.mem_map_of_mem hc
  have hshort (hlength : T.events.length ≤ 1) :
      after.row.status = before.row.status ∨ StatusChange before.row.status after.row.status := by
    refine statusChange_of_length_le_one hevolves ((List.length_filter_le _ _).trans ?_)
    simpa [Txn.events] using hlength
  have hwrites := h.writes hT
  cases htask : T.task with
  | claimLoop args pc =>
    rw [htask] at hwrites
    have hmap : (T.changes.map Change.event).map LogEntry.event = T.events := by simp [Txn.events]
    obtain ⟨recoveries, claims, hsplit, hrecovered, hclaimed⟩ := Task.Writes.claimLoop_split (hmap ▸ hwrites)
    rw [hsplit, List.filter_append] at hevolves
    exact statusChange_of_claimLoop hevolves (fun op hop => hrecovered op (List.mem_filter.mp hop).1)
      fun op hop => hclaimed op (List.mem_filter.mp hop).1
  | call x op pc =>
    rw [htask] at hwrites
    refine hshort (le_of_eq_of_le (congrArg List.length hwrites) ?_)
    split <;> simp
  | cancel id' pc =>
    rw [htask] at hwrites
    refine hshort (le_of_eq_of_le (congrArg List.length hwrites) ?_)
    split <;> simp
  | insert job pc =>
    rw [htask] at hwrites
    -- An insertion draws a new id, so it has no operation on this job.
    have hnil : (T.changes.map Change.event).filter (fun op => jobDynamics.target op = id) = [] := by
      apply List.eq_nil_iff_forall_not_mem.mpr
      intro op hop
      obtain ⟨id', job', hevent⟩ := hwrites _ (hmem op hop)
      exact hinsert op hop id' job' hevent
    exact statusChange_of_length_le_one hevolves (by simp [hnil])
  | replay id' force pc =>
    rw [htask] at hwrites
    exact hshort (by simp [show T.events = [] from hwrites])
  | updateQueue args pc =>
    rw [htask] at hwrites
    exact hshort (by simp [show T.events = [] from hwrites])
  | purge args pc =>
    rw [htask] at hwrites
    refine Or.inl (Evolves.status_invariant (R := fun a b => b = a) hevolves (fun _ => rfl) hinsert ?_ rfl rfl)
    intro op hop first m a hacts hm
    rcases hwrites _ (hmem op hop) with ⟨id', hevent⟩ | ⟨id', hevent⟩
    · cases hacts with
      | unlinked => exact hm
      | _ => cases hevent
    · cases hacts <;> cases hevent

/-! ## Final states -/

/-- The operations that a job in a final state still sees. -/
def FinalOp (op : LogEntry) : Prop := (∃ id, op.event = .unlinked id) ∨ ∃ id args, op.event = .deleted id args

/-- What is left of a job that had come to its end when `entry` was its state: the row, at most
without its reference to a replayed job, or nothing after its deletion. -/
def Remains (entry : JobEntry) (ops : List LogEntry) : Option JobEntry → Prop
  | some after => Settled entry after
  | none => ∃ op ∈ ops, ∃ id args, op.event = .deleted id args

/-- From a final state on a job sees nothing but the purge. -/
theorem JobHistory.remains {log ops : List LogEntry} {entry : JobEntry} {row : Option JobEntry}
    (h : JobHistory id log (some entry)) (hfinal : entry.row.status.isFinal = true)
    (h' : JobHistory id (log ++ ops) row) : (∀ op ∈ ops, FinalOp op) ∧ Remains entry ops row := by
  induction ops using List.reverseRecOn generalizing row with
  | nil =>
    obtain rfl := h.unique (by simpa using h')
    exact ⟨by simp, .refl entry⟩
  | append_singleton ops op ih =>
    rw [← List.append_assoc] at h'
    obtain ⟨before, hbefore, hacts, hop⟩ := h'.of_snoc
    obtain ⟨hops, hremains⟩ := ih hbefore
    suffices hlast : FinalOp op ∧ Remains entry (ops ++ [op]) row by
      refine ⟨fun op' hop' => ?_, hlast.2⟩
      rcases List.mem_append.mp hop' with hold | hnew
      · exact hops op' hold
      · rw [List.mem_singleton.mp hnew]
        exact hlast.1
    cases before with
    | none =>
      -- A deleted job does not come back: its id has been used.
      cases row with
      | none => cases hacts
      | some after =>
        have hnil := hbefore.eq_nil_of_inserted hacts hop (h'.jobId_of_mem (by simp))
        obtain ⟨rfl, rfl⟩ := List.append_eq_nil_iff.mp hnil
        cases h.unique .nil
    | some before =>
      have hsettled : Settled entry before := hremains
      have hfinal' : before.row.status.isFinal = true := by
        rw [hsettled.status_eq]
        exact hfinal
      cases row with
      | none =>
        cases hacts with
        | deleted hpurge =>
          exact ⟨Or.inr ⟨_, _, rfl⟩, _, List.mem_append_right _ (List.mem_singleton_self _), _, _, rfl⟩
      | some after =>
        refine ⟨?_, hsettled.trans (hacts.settled hfinal')⟩
        cases hacts with
        | unlinked => exact Or.inl ⟨_, rfl⟩
        | claimed hclaim => simp [hclaim.1, JobStatus.isFinal] at hfinal'
        | extended howned | returned howned | completed howned | failed howned =>
          simp [howned.2, JobStatus.isFinal] at hfinal'
        | recovered hexpired => simp [hexpired.1, JobStatus.isFinal] at hfinal'
        | cancelled hpending => simp [hpending, JobStatus.isFinal] at hfinal'

/-- The log only grows. -/
theorem log_of_reaches {s' : State} (h : Reaches step s s') : ∃ rest, s'.log = s.log ++ rest := by
  refine h.invariant (I := fun s' => ∃ rest, s'.log = s.log ++ rest) ⟨[], by simp⟩ ?_
  rintro s₁ a s₂ ⟨rest, hrest⟩ - hs
  rcases jobs_of_step hs with ⟨t, T, -, -, -, rfl⟩ | ⟨-, -, hlog⟩
  · exact ⟨rest ++ T.changes.map Change.event, by simp [State.commit, hrest]⟩
  · exact ⟨rest, hlog.trans hrest⟩

/-- What is reached from a reachable state is reachable. -/
theorem Reachable.trans {s' : State} (h : Reachable s) (h' : Reaches step s s') : Reachable s' := by
  obtain ⟨clock, hrun⟩ := h
  exact ⟨clock, Relation.ReflTransGen.trans hrun h'⟩

/-- A claim in flight has not picked a job that has come to its end. -/
theorem Reachable.not_claiming (h : Reachable s) (hT : s.txns t = some T) {log rest : List LogEntry}
    {entry : JobEntry} (hentry : JobHistory id log (some entry))
    (hfinal : entry.row.status.isFinal = true)
    (hlog : jobLog s.log id = log ++ rest) : id ∉ T.task.claiming := by
  intro hid
  have hview := h.jobHistory_view hT id
  rw [jobLog_append, hlog, List.append_assoc] at hview
  obtain ⟨hops, hremains⟩ := hentry.remains hfinal hview
  have htxn := h.inv.txn t T hT
  have htask := htxn.task
  unfold TaskOk at htask
  unfold Task.claiming at hid
  split at hid
  · rename_i hpc
    simp only [hpc] at htask
    obtain ⟨-, row, hrow, hclaim⟩ := htask id hid
    rw [hrow] at hremains
    rw [← (show Settled entry row from hremains).status_eq, hclaim.1] at hfinal
    cases hfinal
  · rename_i hpc
    simp only [hpc] at htask
    obtain ⟨row, hrow, rfl⟩ := List.mem_map.mp hid
    obtain ⟨c, hc, hevent⟩ := htask row hrow
    have hmem : c.event ∈ jobLog (T.changes.map Change.event) row.id :=
      List.mem_filter.mpr ⟨List.mem_map_of_mem hc, by simp [hevent, JobEvent.jobId]⟩
    rcases hops _ (List.mem_append_right _ hmem) with ⟨id', hfinalOp⟩ | ⟨id', args', hfinalOp⟩
    · rw [hevent] at hfinalOp
      cases hfinalOp
    · rw [hevent] at hfinalOp
      cases hfinalOp
  · cases hid

/-- Once a committed job is final, nothing follows in any continuation of the run but its purge, and
no claim returns it. -/
theorem Reachable.absorbed (h : Reachable s) {entry : JobEntry} (hget : s.jobs.get id = some entry)
    (hfinal : entry.row.status.isFinal = true) {s' : State} (hrun : Reaches step s s') :
    ∃ rest, s'.log = s.log ++ rest ∧ (∀ op ∈ rest, op.event.jobId = id → FinalOp op) ∧
      Remains entry (jobLog rest id) (s'.jobs.get id) ∧
      ∀ t T, s'.txns t = some T → id ∉ T.task.claiming := by
  obtain ⟨rest, hrest⟩ := log_of_reaches hrun
  have hentry : JobHistory id (jobLog s.log id) (some entry) := hget ▸ h.jobHistory id
  have hlog : jobLog s'.log id = jobLog s.log id ++ jobLog rest id := by rw [hrest, jobLog_append]
  have hlater := (h.trans hrun).jobHistory id
  rw [hlog] at hlater
  obtain ⟨hops, hremains⟩ := hentry.remains hfinal hlater
  refine ⟨rest, hrest, fun op hop hid => hops op (List.mem_filter.mpr ⟨hop, by simpa using hid⟩), hremains, ?_⟩
  exact fun t T hT => (h.trans hrun).not_claiming hT hentry hfinal hlog

/-! ## Cancel against claim -/

/-- A cancel that has not succeeded has written nothing. -/
theorem Reachable.cancel_changes_nothing (h : Reachable s) (hT : s.txns t = some T)
    {result : CancelResult}
    (htask : T.task = .cancel id (.finished result)) (hresult : result ≠ .cancelled) :
    T.view s = s.jobs := by
  have hwrites := h.writes hT
  rw [htask] at hwrites
  apply Txn.view_eq_of_events s
  simpa [Task.Writes, hresult] using hwrites

/-- A cancel that has succeeded holds the lock of the job. -/
theorem Reachable.jobLock_of_cancelled (h : Reachable s) (hT : s.txns t = some T)
    (htask : T.task = .cancel id (.finished .cancelled)) : s.jobLocks id = some t := by
  have hwrites := h.writes hT
  rw [htask] at hwrites
  obtain ⟨c, hchanges, hevent⟩ := List.map_eq_singleton_iff.mp (show T.events = [.cancelled id] from hwrites)
  have hlock := (h.inv.txn t T hT).locked c (by simp [hchanges])
  rwa [hevent] at hlock

/-- A cancel that finds the job no longer pending reports a conflict and writes nothing. -/
theorem cancelStatement_conflict {pc : CancelPc} {effect : Effect} {entry : JobEntry}
    (he : cancelStatement s t T id pc = some effect) (hget : (T.view s).get id = some entry)
    (hstatus : entry.row.status ≠ .pending) :
    effect.task = .cancel id (.finished .conflict) ∧ effect.changes = [] := by
  cases pc with
  | begin =>
    simp only [cancelStatement, hget, hstatus, if_false, Option.some.injEq] at he
    subst he
    exact ⟨rfl, rfl⟩
  | checked =>
    simp only [cancelStatement, hget, hstatus, if_false, Option.some.injEq] at he
    subst he
    exact ⟨rfl, rfl⟩
  | matched =>
    simp only [cancelStatement, hget, hstatus, if_false] at he
    split_ifs at he
    cases he
    exact ⟨rfl, rfl⟩
  | finished result => cases he

/-- A committed cancel found no lease on the job, and no claim of it follows. -/
theorem JobHistory.cancelled {pre post : List LogEntry} {c : LogEntry} {row : Option JobEntry}
    (h : JobHistory id (pre ++ c :: post) row) (hc : c.event = .cancelled id) :
    currentLease pre = none ∧ ∀ op ∈ post, op.event.isClaim = false := by
  rw [List.append_cons] at h
  obtain ⟨after, hafter⟩ := h.of_append
  obtain ⟨before, hbefore, hacts, -⟩ := hafter.of_snoc
  obtain ⟨t, now, event⟩ := c
  obtain rfl : event = _ := hc
  cases hacts with
  | @cancelled _ _ _ entry hpending =>
    constructor
    · by_contra hlease
      have hleased := hbefore.leaseShown.leased.mpr hlease
      rw [hpending] at hleased
      cases hleased
    · intro op hop
      rcases (hafter.remains rfl h).1 op hop with ⟨id', hevent⟩ | ⟨id', args, hevent⟩ <;> rw [hevent] <;> rfl

/-- The life of a job under any interleaving: the transitions of its status, the absorbing final
states, and the race of a cancel with claims, which the loser notices. -/
theorem job_lifecycle (h : Reachable s) :
    (∀ a s' id before after, step s a = some s' → s.jobs.get id = some before → s'.jobs.get id = some after →
      after.row.status = before.row.status ∨ StatusChange before.row.status after.row.status) ∧
    (∀ id entry s', s.jobs.get id = some entry → entry.row.status.isFinal = true → Reaches step s s' →
      ∃ rest, s'.log = s.log ++ rest ∧ (∀ op ∈ rest, op.event.jobId = id → FinalOp op) ∧
        Remains entry (jobLog rest id) (s'.jobs.get id) ∧
        ∀ t T, s'.txns t = some T → id ∉ T.task.claiming) ∧
    (∀ id t t' T T', s.txns t = some T → s.txns t' = some T' →
      T.task = .cancel id (.finished .cancelled) → id ∉ T'.task.claiming) ∧
    (∀ id pre c post, jobLog s.log id = pre ++ c :: post → c.event = .cancelled id →
      currentLease pre = none ∧ ∀ op ∈ post, op.event.isClaim = false) ∧
    (∀ id t T pc effect entry, s.txns t = some T → T.task = .cancel id pc → statement s t T = some effect →
      (T.view s).get id = some entry → entry.row.status ≠ .pending →
      effect.task = .cancel id (.finished .conflict) ∧ effect.changes = []) ∧
    (∀ id t T result, s.txns t = some T → T.task = .cancel id (.finished result) → result ≠ .cancelled →
      (s.commit t T).jobs = s.jobs) := by
  refine ⟨?_, fun id entry s' hget hfinal hrun => h.absorbed hget hfinal hrun, ?_, ?_, ?_, ?_⟩
  · intro a s' id before after hs hbefore hafter
    rcases jobs_of_step hs with ⟨t, T, -, hT, -, rfl⟩ | ⟨-, hjobs, -⟩
    · exact h.statusChange_commit hT hbefore hafter
    · rw [hjobs, hbefore] at hafter
      obtain rfl := Option.some.inj hafter
      exact Or.inl rfl
  · intro id t t' T T' hT hT' htask hclaiming
    have hlock := (h.jobLock_of_cancelled hT htask).symm.trans (h.jobLock_of_claiming hT' hclaiming)
    obtain rfl := Option.some.inj hlock
    obtain rfl : T = T' := Option.some.inj (hT.symm.trans hT')
    simp [htask, Task.claiming] at hclaiming
  · intro id pre c post hlog hc
    exact (hlog ▸ h.jobHistory id : JobHistory id (pre ++ c :: post) (s.jobs.get id)).cancelled hc
  · intro id t T pc effect entry hT htask he hget hstatus
    simp only [statement, htask] at he
    exact cancelStatement_conflict he hget hstatus
  · intro id t T result hT htask hresult
    exact h.cancel_changes_nothing hT htask hresult

/-- A job is enqueued and cancelled. -/
def cancelledRun : List Action :=
  transaction 0 (.enqueue (handlerJob "mail" 2)) 5 ++ transaction 1 (.cancel 0) 3

/-- Nothing claims the cancelled job any more. -/
theorem job_lifecycle_cancelledRun : ∃ entry, (stateAfter 0 cancelledRun).jobs.get 0 = some entry ∧
    entry.row.status = .cancelled ∧ ∀ s', Reaches step (stateAfter 0 cancelledRun) s' →
      ∀ t T, s'.txns t = some T → 0 ∉ T.task.claiming := by
  have hstatus : ((stateAfter 0 cancelledRun).jobs.get 0).map (fun entry => entry.row.status) =
      some .cancelled := by
    decide +kernel
  obtain ⟨entry, hget, hcancelled⟩ := Option.map_eq_some_iff.mp hstatus
  refine ⟨entry, hget, hcancelled, fun s' hrun => ?_⟩
  obtain ⟨rest, -, -, -, hclaiming⟩ :=
    (job_lifecycle (reachable_stateAfter 0 cancelledRun)).2.1 0 entry s' hget (by rw [hcancelled]; rfl) hrun
  exact hclaiming

end PgRelay
