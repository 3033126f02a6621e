import PgRelay.CrashRecovery
import PgRelay.QueueSettings

/-!
# One worker is enough

A worker that is alone with the database, and whose jobs all succeed, gets through the queues it serves, also
after a crash that has left jobs leased, once their leases have ended. It works in cycles: a round of its claim
loop, then the reports of the jobs that the round has claimed. As long as there is a job for it, a cycle recovers
a job or executes one. So no job is passed over for ever: a job that waits costs one cycle, a job that has been
left leased costs two.
-/

namespace PgRelay

open RowStore Selection

variable {s s' : State} {t : TxnId} {T : Txn} {effect : Effect} {args : ClaimArgs} {jobs : JobTable}
  {claimed : List JobEntry}

/-! ## Cycles -/

/-- The execution reports its success. -/
def Succeeds (x : Execution) (s s' : State) : Prop :=
  ∃ report, x ∈ s.executions ∧ RunsAlone (.call x (.complete report) .begin) s s'

/-- The executions report their success, one after the other. -/
inductive AllSucceed : List Execution → State → State → Prop
  | none (s : State) : AllSucceed [] s s
  | more {x : Execution} {xs : List Execution} {s s' s'' : State} (first : Succeeds x s s')
      (rest : AllSucceed xs s' s'') : AllSucceed (x :: xs) s s''

/-- A round of the claim loop, and the reports of the executions that it has started. -/
def WorkCycle (args : ClaimArgs) (s s' : State) : Prop :=
  ∃ s₁, RunsAlone (.claimLoop args .begin) s s₁ ∧ AllSucceed (s₁.executions.drop s.executions.length) s₁ s'

/-- So many cycles, one after the other. -/
inductive WorkCycles (args : ClaimArgs) : ℕ → State → State → Prop
  | none (s : State) : WorkCycles args 0 s s
  | more {n : ℕ} {s s' s'' : State} (before : WorkCycles args n s s') (last : WorkCycle args s' s'') :
      WorkCycles args (n + 1) s s''

/-- No lease is still running. -/
def LeasesEnded (s : State) : Prop :=
  ∀ id entry, s.jobs.get id = some entry → entry.row.status = .leased → LeaseExpired s.clock entry.row

/-- A job that the worker has to execute: it is not final, has an attempt left and is due, and its queue is
served. -/
structure Deliverable (args : ClaimArgs) (s : State) (j : JobRow) : Prop where
  status : j.status = .pending ∨ j.status = .leased
  attempt : j.attemptCount < j.maxAttempts
  due : j.availableAt ≤ s.clock
  served : ServesQueue args.queueNames s.queues j.queueName

/-- The job is leased. -/
def isLeased (entry : JobEntry) : Bool := entry.row.status = .leased

/-- The job is leased, or it is pending with an attempt left. -/
def isUnfinished (entry : JobEntry) : Bool :=
  entry.row.status = .leased ∨ entry.row.status = .pending ∧ entry.row.attemptCount < entry.row.maxAttempts

/-- The cycles that the jobs can cost: one for each unfinished job, and one more if it has to be recovered. -/
def workLeft (jobs : JobTable) : ℕ := jobs.count isLeased + jobs.count isUnfinished

/-! ## What a round claims -/

/-- Where a round that is alone stands, with the claim that it has made. -/
def ClaimingStands (s : State) (args : ClaimArgs) (x : State) (T : Txn) : Prop :=
  ∃ pc, T.task = .claimLoop args pc ∧ RoundAt s args (T.view x) pc ∧ T.queueView x = s.queues ∧
    (pc.isRecovery = false → ∃ jobs : JobTable, (∀ id, jobs.get id = recoveredRow s (recoverPicked s args) id) ∧
      ClaimStands s.clock args s.queues jobs x s.nextTxn)

/-- The execution that a round starts for a job it claims. -/
def startedExecution (s : State) (args : ClaimArgs) (entry : JobEntry) : Execution :=
  ⟨s.nextTxn, args.worker, claimUpdate s.clock args.worker args.leaseSeconds entry.row⟩

/-- What a round has recovered and claimed. -/
structure RoundClaimed (s : State) (args : ClaimArgs) (s' : State) (jobs : JobTable) (claimed : List JobEntry) :
    Prop where
  recovered : ∀ id, jobs.get id = recoveredRow s (recoverPicked s args) id
  selects : ClaimSelects s.clock args.queueNames args.batchSize s.queues jobs claimed
  leases : Leases s.clock args claimed jobs s'.jobs
  executions_eq : s'.executions = s.executions ++ claimed.map (startedExecution s args)
  queues_eq : s'.queues = s.queues

/-- Time does not change where a claim stands. -/
theorem ClaimStands.tick {now : Timestamp} {queues : QueueTable} {x : State} (elapsed : ℕ)
    (h : ClaimStands now args queues jobs x t) :
    ClaimStands now args queues jobs { x with clock := x.clock + elapsed } t := by
  cases h with
  | running T pc hfinds htask hpc =>
    exact .running T pc ⟨hfinds.txn, hfinds.now_eq, hfinds.view_eq, hfinds.queueView_eq, hfinds.alone.jobs,
      hfinds.alone.queues, hfinds.alone.shares⟩ htask hpc
  | finished T rows claimed htxn htask hclaimed => exact .finished T rows claimed htxn htask hclaimed

/-- Neither time nor the steps of a round that is alone change where it stands. -/
theorem keptAlone_claimingStands : KeptAlone s (ClaimingStands s args) where
  tick x T elapsed h := by
    obtain ⟨pc, htask, hstands, hqueues, hclaims⟩ := h
    refine ⟨pc, htask, hstands, hqueues, fun hpc => ?_⟩
    obtain ⟨jobs, hjobs, hclaim⟩ := hclaims hpc
    exact ⟨jobs, hjobs, hclaim.tick elapsed⟩
  step x T effect h hP he := by
    obtain ⟨pc, htask, hstands, hqueues, hclaims⟩ := hP
    have hmove := he.claimMove htask
    obtain ⟨pc', htask', hstands'⟩ := keptAlone_roundStands.step x T effect h ⟨pc, htask, hstands⟩ he
    have hqueues' : (T.after effect).queueView (x.perform s.nextTxn T effect) = s.queues := by
      rw [queueView_perform, hmove.queueWrites]
      exact hqueues
    refine ⟨pc', htask', hstands', hqueues', fun hpc' => ?_⟩
    cases hpc : pc.isRecovery with
    | false =>
      obtain ⟨jobs, hjobs, hclaim⟩ := hclaims hpc
      refine ⟨jobs, hjobs, ?_⟩
      rcases he with he | he | ⟨job, he⟩
      · exact hclaim.step (a := .advance s.nextTxn) (.inl rfl) (by simp [step, h.txn, he])
      · exact hclaim.step (a := .scan s.nextTxn) (.inr rfl) (by simp [step, h.txn, he])
      · simp [enqueueMore, htask] at he
    | true =>
      -- The claim begins on the table that the recovery has left.
      cases hmove with
      | recover hpc₁ hpc₂ htask₂ =>
        obtain ⟨-, rfl⟩ := Task.claimLoop.inj (htask₂.symm.trans htask')
        rw [hpc₂] at hpc'
        cases hpc'
      | beginLocking =>
        refine ⟨T.view x, hstands, .running (T.after _) _ ⟨?_, h.now_eq, view_perform_of_nil rfl, hqueues', ?_⟩ rfl
          trivial⟩
        · simp [State.perform]
        · exact ⟨h.alone.jobs, h.alone.queues, h.alone.shares⟩
      | _ => cases hpc

/-- A round that is alone recovers and claims what it should. -/
theorem roundClaimed (h : RunsAlone (.claimLoop args .begin) s s') (hs : Reachable s) (hidle : Quiescent s)
    (hbatch : 0 < args.batchSize) : ∃ jobs claimed, RoundClaimed s args s' jobs claimed := by
  obtain ⟨x, T, hsole, ⟨pc, htask, -, hqueues, hclaims⟩, hdone, rfl⟩ := h.of_kept keptAlone_claimingStands hs hidle
    (rfl : (Request.claimLoop args).task s = _) ⟨.begin, rfl, rfl, rfl, fun hpc => by cases hpc⟩
  rw [htask] at hdone
  cases pc with
  | finished rows =>
    obtain ⟨jobs, hjobs, hclaim⟩ := hclaims rfl
    cases hclaim with
    | running T' pc' hfinds htask' hpc' =>
      obtain rfl := Option.some.inj (hsole.txn.symm.trans hfinds.txn)
      obtain rfl : pc' = .finished rows := by simpa [htask] using htask'.symm
      exact hpc'.elim
    | finished T' rows' claimed htxn htask' hclaimed =>
      obtain rfl := Option.some.inj (hsole.txn.symm.trans htxn)
      obtain rfl : rows' = rows := by simpa [htask] using htask'.symm
      refine ⟨jobs, claimed, hjobs, hclaimed.selects, hclaimed.leases, ?_, hqueues⟩
      change x.executions ++ T.task.started s.nextTxn = _
      rw [hsole.executions_eq, htask, Task.started, hclaimed.rows_eq, List.map_map]
      rfl
  | recovered => simp [Task.committable, hbatch.ne'] at hdone
  | begin | recovering | lockingQueues | queuesLocked | claiming => cases hdone

/-! ## What a report changes -/

/-- What the report of an execution that holds the lease of its job has done when it has come to a point. -/
def CallAt (s : State) (x : Execution) (report : CompleteArgs) (entry : JobEntry) (view : JobTable) : CallPc → Prop
  | .finished _ => ∀ id, view.get id =
      if x.job.id = id then some (completeJob s.clock x.job x.worker report entry) else s.jobs.get id
  | _ => view = s.jobs

/-- Where such a report stands while it is alone. -/
def CallStands (s : State) (x : Execution) (report : CompleteArgs) (entry : JobEntry) (y : State) (T : Txn) : Prop :=
  ∃ pc, T.task = .call x (.complete report) pc ∧ T.queueView y = s.queues ∧ CallAt s x report entry (T.view y) pc

/-- Neither time nor the steps of a report that is alone change where it stands. -/
theorem keptAlone_callStands {x : Execution} {report : CompleteArgs} {entry : JobEntry}
    (hget : s.jobs.get x.job.id = some entry) (howned : OwnedBy x.worker entry.row) :
    KeptAlone s (CallStands s x report entry) where
  tick _ _ _ h := h
  step y T effect h hP he := by
    obtain ⟨pc, htask, hqueues, hstands⟩ := hP
    have hqueues' (hwrites : effect.queueWrites = []) :
        (T.after effect).queueView (y.perform s.nextTxn T effect) = s.queues := by
      rw [queueView_perform, hwrites]
      exact hqueues
    have hok : EffectOk y s.nextTxn T effect := he.ok h.reachable.inv (h.reachable.inv.txn _ _ h.txn)
    have he : callStatement y s.nextTxn T x (.complete report) pc = some effect := by
      have he := he.statement_eq (by rw [htask]; rfl)
      simpa only [statement, htask] using he
    cases pc with
    | begin =>
      have hview : T.view y = s.jobs := hstands
      simp only [callStatement, hview, hget, if_pos howned, Option.some.injEq] at he
      subst he
      exact ⟨.matched, rfl, hqueues' rfl, (view_perform_of_nil rfl).trans hview⟩
    | matched =>
      have hview : T.view y = s.jobs := hstands
      simp only [callStatement, if_pos (h.alone.jobs _), hview, hget, if_pos howned, Option.some.injEq] at he
      subst he
      refine ⟨.finished true, rfl, hqueues' rfl, fun id => ?_⟩
      rw [hok.get_view rfl, hview, ← h.now_eq]
      rfl
    | finished updated => cases he

/-- What a state has become by reports of executions that held the leases of their jobs: these jobs have
succeeded, and no other has changed. -/
structure Reported (xs : List Execution) (s s' : State) : Prop where
  reachable : Reachable s'
  idle : Quiescent s'
  clock_le : s.clock ≤ s'.clock
  queues_eq : s'.queues = s.queues
  executions_eq : s'.executions = s.executions
  succeeded : ∀ x ∈ xs, ∃ entry, s'.jobs.get x.job.id = some entry ∧ entry.row.status = .succeeded
  others : ∀ id, id ∉ xs.map (fun x => x.job.id) → s'.jobs.get id = s.jobs.get id

/-- The execution holds the lease of its job. -/
def HoldsLease (s : State) (x : Execution) : Prop :=
  ∃ entry, s.jobs.get x.job.id = some entry ∧ OwnedBy x.worker entry.row

/-- The report of an execution that holds its lease makes its job succeed, and no other. -/
theorem Succeeds.reported {x : Execution} (h : Succeeds x s s') (hs : Reachable s) (hidle : Quiescent s)
    (hlease : HoldsLease s x) : Reported [x] s s' := by
  obtain ⟨report, hmem, hrun⟩ := h
  obtain ⟨entry, hget, howned⟩ := hlease
  obtain ⟨i, hi⟩ := List.mem_iff_getElem?.mp hmem
  have hrequest : (Request.call i (.complete report)).task s = some (.call x (.complete report) .begin) := by
    simp [Request.task, hi]
  obtain ⟨y, T, hsole, ⟨pc, htask, hqueues, hstands⟩, hdone, rfl⟩ :=
    hrun.of_kept (keptAlone_callStands hget howned) hs hidle hrequest ⟨.begin, rfl, rfl, rfl⟩
  rw [htask] at hdone
  obtain ⟨hreach, hidle', hclock⟩ := hsole.commit (by rw [htask]; exact hdone)
  cases pc with
  | finished updated =>
    have hview : ∀ id, (y.commit s.nextTxn T).jobs.get id =
        if x.job.id = id then some (completeJob s.clock x.job x.worker report entry) else s.jobs.get id := hstands
    refine ⟨hreach, hidle', hclock, hqueues, ?_, fun x' hx' => ?_, fun id hid => ?_⟩
    · change y.executions ++ T.task.started s.nextTxn = _
      rw [hsole.executions_eq, htask]
      exact List.append_nil _
    · obtain rfl := List.mem_singleton.mp hx'
      exact ⟨_, by rw [hview, if_pos rfl], rfl⟩
    · rw [hview, if_neg fun h => hid (by simp [h])]
  | begin | matched => cases hdone

/-- An execution that holds its lease can report its success. -/
theorem exists_succeeds {x : Execution} (hs : Reachable s) (hidle : Quiescent s) (hmem : x ∈ s.executions)
    (hlease : HoldsLease s x) : ∃ s', Succeeds x s s' := by
  obtain ⟨entry, hget, howned⟩ := hlease
  obtain ⟨i, hi⟩ := List.mem_iff_getElem?.mp hmem
  let report : CompleteArgs := ⟨0, none, none⟩
  have hrequest : (Request.call i (.complete report)).task s = some (.call x (.complete report) .begin) := by
    simp [Request.task, hi]
  have hstop (y : State) (T : Txn) (hP : CallStands s x report entry y T) (hends : T.task.over = true ∨ T.Refused y) :
      T.task.committable = true := by
    obtain ⟨pc, htask, -⟩ := hP
    rcases hends with hover | hrefused
    · simpa [Task.over, htask] using hover
    · simp [Txn.Refused, htask] at hrefused
  obtain ⟨s', hrun⟩ := exists_runsAlone (keptAlone_callStands hget howned) hs hidle hrequest
    ⟨.begin, rfl, rfl, rfl⟩ hstop
  exact ⟨s', report, hmem, hrun⟩

/-- The lease of another job stays as it is. -/
theorem Reported.holdsLease {xs : List Execution} (h : Reported xs s s') {y : Execution} (hy : HoldsLease s y)
    (hid : y.job.id ∉ xs.map fun x => x.job.id) : HoldsLease s' y := by
  obtain ⟨entry, hget, howned⟩ := hy
  exact ⟨entry, (h.others _ hid).trans hget, howned⟩

/-- The reports of several executions that hold their leases make their jobs succeed, and no other. -/
theorem AllSucceed.reported {xs : List Execution} (h : AllSucceed xs s s') (hs : Reachable s) (hidle : Quiescent s)
    (hnodup : (xs.map fun x => x.job.id).Nodup) (hleases : ∀ x ∈ xs, HoldsLease s x) : Reported xs s s' := by
  induction h with
  | none s => exact ⟨hs, hidle, le_refl _, rfl, rfl, fun x hx => absurd hx List.not_mem_nil, fun _ _ => rfl⟩
  | @more x xs s s' s'' first rest ih =>
    obtain ⟨hfresh, hnodup⟩ := List.nodup_cons.mp hnodup
    have hfirst := first.reported hs hidle (hleases x List.mem_cons_self)
    have hdistinct (y : Execution) (hy : y ∈ xs) : y.job.id ∉ [x].map fun x => x.job.id := fun hsame =>
      hfresh (List.mem_map.mpr ⟨y, hy, List.mem_singleton.mp hsame⟩)
    have hrest := ih hfirst.reachable hfirst.idle hnodup fun y hy =>
      hfirst.holdsLease (hleases y (List.mem_cons_of_mem _ hy)) (hdistinct y hy)
    refine ⟨hrest.reachable, hrest.idle, hfirst.clock_le.trans hrest.clock_le,
      hrest.queues_eq.trans hfirst.queues_eq, hrest.executions_eq.trans hfirst.executions_eq, fun y hy => ?_,
      fun id hid => ?_⟩
    · rcases List.mem_cons.mp hy with rfl | hy
      · obtain ⟨entry, hget, hstatus⟩ := hfirst.succeeded y List.mem_cons_self
        exact ⟨entry, (hrest.others _ hfresh).trans hget, hstatus⟩
      · exact hrest.succeeded y hy
    · obtain ⟨hne, hid⟩ := not_or.mp (List.mem_cons.not.mp hid)
      exact (hrest.others id hid).trans (hfirst.others id (by simpa using hne))

/-- Executions that hold their leases can report their success, one after the other. -/
theorem exists_allSucceed {xs : List Execution} (hs : Reachable s) (hidle : Quiescent s) (hsub : xs ⊆ s.executions)
    (hnodup : (xs.map fun x => x.job.id).Nodup) (hleases : ∀ x ∈ xs, HoldsLease s x) : ∃ s', AllSucceed xs s s' := by
  induction xs generalizing s with
  | nil => exact ⟨s, .none s⟩
  | cons x xs ih =>
    obtain ⟨hfresh, hnodup⟩ := List.nodup_cons.mp hnodup
    obtain ⟨s', hfirst⟩ := exists_succeeds hs hidle (hsub List.mem_cons_self) (hleases x List.mem_cons_self)
    have hreported := hfirst.reported hs hidle (hleases x List.mem_cons_self)
    obtain ⟨s'', hrest⟩ := ih hreported.reachable hreported.idle
      (fun y hy => hreported.executions_eq ▸ hsub (List.mem_cons_of_mem _ hy)) hnodup fun y hy =>
        hreported.holdsLease (hleases y (List.mem_cons_of_mem _ hy)) fun hsame =>
          hfresh (List.mem_map.mpr ⟨y, hy, List.mem_singleton.mp hsame⟩)
    exact ⟨s'', .more hfirst hrest⟩

/-! ## What a cycle does -/

/-- The jobs that a round has claimed are leased to the executions that it has started. -/
theorem RoundClaimed.holdsLease (h : RoundClaimed s args s' jobs claimed) {entry : JobEntry}
    (hentry : entry ∈ claimed) : HoldsLease s' (startedExecution s args entry) :=
  ⟨_, h.leases.1 entry hentry, rfl, rfl⟩

/-- The executions that a round has started are those of the jobs it has claimed. -/
theorem RoundClaimed.started (h : RoundClaimed s args s' jobs claimed) :
    s'.executions.drop s.executions.length = claimed.map (startedExecution s args) := by
  rw [h.executions_eq, List.drop_left]

/-- The ids of the executions are those of the claimed jobs. -/
theorem map_startedExecution :
    (claimed.map (startedExecution s args)).map (fun x => x.job.id) = claimed.map JobEntry.id := by
  rw [List.map_map]
  rfl

/-- What a cycle has done: the jobs that it has claimed have succeeded, and the others are as the recovery has left
them. -/
structure CycleDone (s : State) (args : ClaimArgs) (s' : State) (jobs : JobTable) (claimed : List JobEntry) :
    Prop where
  reachable : Reachable s'
  idle : Quiescent s'
  clock_le : s.clock ≤ s'.clock
  queues_eq : s'.queues = s.queues
  recovered : ∀ id, jobs.get id = recoveredRow s (recoverPicked s args) id
  selects : ClaimSelects s.clock args.queueNames args.batchSize s.queues jobs claimed
  succeeded : ∀ entry ∈ claimed, ∃ entry', s'.jobs.get entry.id = some entry' ∧ entry'.row.status = .succeeded
  others : ∀ id, id ∉ claimed.map JobEntry.id → s'.jobs.get id = jobs.get id

/-- A cycle recovers and claims what it should, and what it has claimed succeeds. -/
theorem WorkCycle.done (h : WorkCycle args s s') (hs : Reachable s) (hidle : Quiescent s)
    (hbatch : 0 < args.batchSize) : ∃ jobs claimed, CycleDone s args s' jobs claimed := by
  obtain ⟨s₁, hround, hreports⟩ := h
  have hdone := roundDone hround hs hidle
  obtain ⟨jobs, claimed, hclaimed⟩ := roundClaimed hround hs hidle hbatch
  rw [hclaimed.started] at hreports
  have hreported := hreports.reported hdone.reachable hdone.idle (map_startedExecution ▸ hclaimed.selects.rows.1)
    fun x hx => by
      obtain ⟨entry, hentry, rfl⟩ := List.mem_map.mp hx
      exact hclaimed.holdsLease hentry
  refine ⟨jobs, claimed, hreported.reachable, hreported.idle, hdone.clock_le.trans hreported.clock_le,
    hreported.queues_eq.trans hclaimed.queues_eq, hclaimed.recovered, hclaimed.selects, fun entry hentry => ?_,
    fun id hid => ?_⟩
  · exact hreported.succeeded _ (List.mem_map_of_mem hentry)
  · exact (hreported.others id (map_startedExecution ▸ hid)).trans (hclaimed.leases.2 id hid)

/-- A worker that is alone can go through a cycle. -/
theorem exists_workCycle (hs : Reachable s) (hidle : Quiescent s) (hbatch : 0 < args.batchSize) :
    ∃ s', WorkCycle args s s' := by
  obtain ⟨s₁, hround⟩ := exists_round hs hidle args
  have hdone := roundDone hround hs hidle
  obtain ⟨jobs, claimed, hclaimed⟩ := roundClaimed hround hs hidle hbatch
  have hsub : claimed.map (startedExecution s args) ⊆ s₁.executions := by
    rw [hclaimed.executions_eq]
    exact List.subset_append_right _ _
  obtain ⟨s', hreports⟩ := exists_allSucceed hdone.reachable hdone.idle hsub
    (map_startedExecution ▸ hclaimed.selects.rows.1) fun x hx => by
      obtain ⟨entry, hentry, rfl⟩ := List.mem_map.mp hx
      exact hclaimed.holdsLease hentry
  exact ⟨s', s₁, hround, hclaimed.started ▸ hreports⟩

/-- A recovered job is pending or in the dead letters. -/
theorem status_recoverExpiredLease (now : Timestamp) (entry : JobEntry) :
    (recoverExpiredLease now entry).row.status ≠ .leased := by
  simp only [recoverExpiredLease, recoverUpdate]
  split_ifs <;> decide

/-- A row that the recovery leaves is a row from before, or a recovered one. -/
theorem CycleDone.row_cases (h : CycleDone s args s' jobs claimed) {id : JobId} {entry' : JobEntry}
    (hget : jobs.get id = some entry') : ∃ entry, s.jobs.get id = some entry ∧
      (entry' = entry ∧ id ∉ recoverPicked s args ∨
        LeaseExpired s.clock entry.row ∧ entry' = recoverExpiredLease s.clock entry) := by
  rw [h.recovered, recoveredRow] at hget
  obtain ⟨entry, hentry, hrow⟩ := Option.map_eq_some_iff.mp hget
  refine ⟨entry, hentry, ?_⟩
  split_ifs at hrow with hid
  · obtain ⟨entry₀, hget₀, hexpired⟩ := mem_recoverCandidates.mp (List.mem_of_mem_take hid)
    obtain rfl := Option.some.inj (hentry.symm.trans hget₀)
    exact .inr ⟨hexpired, hrow.symm⟩
  · exact .inl ⟨hrow.symm, hid⟩

/-- A row after the cycle that has not succeeded is one that the recovery has left. -/
theorem CycleDone.get_of_unclaimed (h : CycleDone s args s' jobs claimed) {id : JobId} {entry' : JobEntry}
    (hget : s'.jobs.get id = some entry') (hstatus : entry'.row.status ≠ .succeeded) :
    id ∉ claimed.map JobEntry.id ∧ jobs.get id = some entry' := by
  have hid : id ∉ claimed.map JobEntry.id := fun hid => by
    obtain ⟨entry, hentry, rfl⟩ := List.mem_map.mp hid
    obtain ⟨entry₁, hget₁, hdone⟩ := h.succeeded entry hentry
    obtain rfl := Option.some.inj (hget.symm.trans hget₁)
    exact hstatus hdone
  exact ⟨hid, (h.others id hid).symm.trans hget⟩

/-- A leased row after the cycle was there before it. -/
theorem CycleDone.get_of_leased (h : CycleDone s args s' jobs claimed) {id : JobId} {entry' : JobEntry}
    (hget : s'.jobs.get id = some entry') (hleased : entry'.row.status = .leased) :
    s.jobs.get id = some entry' ∧ id ∉ recoverPicked s args := by
  obtain ⟨-, hbefore⟩ := h.get_of_unclaimed hget (by rw [hleased]; decide)
  obtain ⟨entry, hentry, ⟨rfl, hid⟩ | ⟨-, rfl⟩⟩ := h.row_cases hbefore
  · exact ⟨hentry, hid⟩
  · exact absurd hleased (status_recoverExpiredLease _ _)

/-- An unfinished row after the cycle was unfinished before it. -/
theorem CycleDone.unfinished (h : CycleDone s args s' jobs claimed) {entry' : JobEntry} (hmem : entry' ∈ s'.jobs.rows)
    (hunfinished : isUnfinished entry' = true) :
    ∃ entry, s.jobs.get entry'.id = some entry ∧ isUnfinished entry = true := by
  have hstatus : entry'.row.status ≠ .succeeded := fun hdone => by simp [isUnfinished, hdone] at hunfinished
  obtain ⟨-, hbefore⟩ := h.get_of_unclaimed (Table.get_of_mem hmem) hstatus
  obtain ⟨entry, hentry, ⟨rfl, -⟩ | ⟨hexpired, -⟩⟩ := h.row_cases hbefore
  · exact ⟨entry', hentry, hunfinished⟩
  · exact ⟨entry, hentry, by simp [isUnfinished, hexpired.1]⟩

/-- A cycle that recovers or claims a job leaves less work. -/
theorem CycleDone.workLeft_lt (h : CycleDone s args s' jobs claimed)
    (hworks : recoverPicked s args ≠ [] ∨ claimed ≠ []) : workLeft s'.jobs < workLeft s.jobs := by
  have hleased : ∀ entry' ∈ s'.jobs.rows, isLeased entry' = true →
      ∃ entry, s.jobs.get entry'.id = some entry ∧ isLeased entry = true := fun entry' hmem hleased =>
    ⟨entry', (h.get_of_leased (Table.get_of_mem hmem) (of_decide_eq_true hleased)).1, hleased⟩
  have hunfinished : ∀ entry' ∈ s'.jobs.rows, isUnfinished entry' = true →
      ∃ entry, s.jobs.get entry'.id = some entry ∧ isUnfinished entry = true := fun entry' => h.unfinished
  rcases hworks with hpicked | hclaimed
  · obtain ⟨id, hid⟩ := List.exists_mem_of_ne_nil _ hpicked
    obtain ⟨entry, hget, hexpired⟩ := mem_recoverCandidates.mp (List.mem_of_mem_take hid)
    refine Nat.add_lt_add_of_lt_of_le (Table.count_lt_count hleased hget (decide_eq_true hexpired.1) ?_)
      (Table.count_le_count hunfinished)
    exact fun entry' hget' => decide_eq_false fun hleft => (h.get_of_leased hget' hleft).2 hid
  · obtain ⟨entry, hentry⟩ := List.exists_mem_of_ne_nil _ hclaimed
    obtain ⟨hmem, hclaimable⟩ := h.selects.rows.2 entry hentry
    obtain ⟨before, hget, hbefore⟩ := h.row_cases (Table.get_of_mem hmem)
    have hcounted : isUnfinished before = true := by
      rcases hbefore with ⟨rfl, -⟩ | ⟨hexpired, -⟩
      · simp [isUnfinished, hclaimable.1, hclaimable.2.2]
      · simp [isUnfinished, hexpired.1]
    refine Nat.add_lt_add_of_le_of_lt (Table.count_le_count hleased)
      (Table.count_lt_count hunfinished hget hcounted ?_)
    intro entry' hget'
    obtain ⟨entry₁, hget₁, hdone⟩ := h.succeeded entry hentry
    obtain rfl := Option.some.inj (hget'.symm.trans hget₁)
    simp [isUnfinished, hdone]

/-- As long as there is a job for the worker, a cycle recovers or claims one. -/
theorem CycleDone.works (h : CycleDone s args s' jobs claimed) (hs : Reachable s) (hended : LeasesEnded s)
    (hbatch : 0 < args.batchSize) (hrecover : 0 < args.recoverBatchSize) {id : JobId} {entry : JobEntry}
    (hget : s.jobs.get id = some entry) (hdeliver : Deliverable args s entry.row) :
    recoverPicked s args ≠ [] ∨ claimed ≠ [] := by
  by_contra hidle
  obtain ⟨hpicked, hclaimed⟩ := not_or.mp hidle
  rw [not_not] at hpicked hclaimed
  have hnone : recoverCandidates s.clock s.jobs = [] :=
    (List.take_eq_nil_iff.mp hpicked).resolve_left hrecover.ne'
  have hsame (id : JobId) : jobs.get id = s.jobs.get id := by
    rw [h.recovered, hpicked, recoveredRow_nil]
  have hunleased (id : JobId) (entry : JobEntry) (hget : s.jobs.get id = some entry) : entry.row.status ≠ .leased :=
    fun hleased => by
      have hmem := mem_recoverCandidates.mpr ⟨entry, hget, hended id entry hget hleased⟩
      rw [hnone] at hmem
      cases hmem
  -- So the job can be claimed, and its queue has a free slot.
  have hpending := hdeliver.status.resolve_right (hunleased id entry hget)
  have hrow : entry ∈ jobs.rows := ((Table.get_eq_some_iff _ _ _).mp ((hsame id).trans hget)).1
  have heligible : entry ∈ claimableJobs s.clock args.queueNames s.queues jobs :=
    mem_claimableJobs.mpr ⟨hrow, ⟨hpending, hdeliver.due, hdeliver.attempt⟩, hdeliver.served⟩
  have hfree : 0 < freeSlots s.queues jobs entry.queue := by
    obtain ⟨queue, hqueue, -⟩ := (Option.any_eq_true _ _).mp hdeliver.served.2
    have hcount : leasedCount jobs entry.queue = 0 := by
      rw [leasedCount, Table.count, List.length_eq_zero_iff, List.filter_eq_nil_iff]
      intro entry' hmem hleased
      exact hunleased entry'.id entry' ((hsame _).symm.trans (Table.get_of_mem hmem)) (of_decide_eq_true hleased).1
    have hqueue' : s.queues.get entry.queue = some queue := hqueue
    have hpos := hs.limit_pos _ _ hqueue
    simp only [freeSlots, hqueue', hcount]
    omega
  obtain ⟨order, ranked, hselects⟩ := h.selects
  have hchoice := hselects.greedyChoice ((List.Nodup.of_map _ jobs.nodup).filter _)
  rcases hchoice.passed entry heligible (by simp [hclaimed]) with ⟨hfull, -⟩ | ⟨hfull, -⟩
  · rw [hclaimed, List.length_nil] at hfull
    omega
  · rw [hclaimed] at hfull
    exact absurd hfull hfree.ne

/-- A cycle executes a job that it should, or leaves it so that a later one should. -/
theorem CycleDone.deliverable (h : CycleDone s args s' jobs claimed) {id : JobId} {entry : JobEntry}
    (hget : s.jobs.get id = some entry) (hdeliver : Deliverable args s entry.row) :
    ∃ entry', s'.jobs.get id = some entry' ∧
      (entry'.row.status = .succeeded ∨ Deliverable args s' entry'.row) := by
  by_cases hid : id ∈ claimed.map JobEntry.id
  · obtain ⟨entry', hentry', rfl⟩ := List.mem_map.mp hid
    obtain ⟨after, hafter, hdone⟩ := h.succeeded entry' hentry'
    exact ⟨after, hafter, .inl hdone⟩
  · rw [h.others id hid, h.recovered, recoveredRow, hget, Option.map_some]
    refine ⟨_, rfl, .inr ?_⟩
    have hdue := hdeliver.due.trans h.clock_le
    have hserved : ServesQueue args.queueNames s'.queues entry.row.queueName := h.queues_eq ▸ hdeliver.served
    split_ifs
    · refine ⟨.inl ?_, hdeliver.attempt, hdue, hserved⟩
      simp [recoverExpiredLease, recoverUpdate, not_le.mpr hdeliver.attempt]
    · exact ⟨hdeliver.status, hdeliver.attempt, hdue, hserved⟩

/-- A job that has succeeded stays as it is. -/
theorem CycleDone.get_of_succeeded (h : CycleDone s args s' jobs claimed) {id : JobId} {entry : JobEntry}
    (hget : s.jobs.get id = some entry) (hdone : entry.row.status = .succeeded) : s'.jobs.get id = some entry := by
  have hjobs : jobs.get id = some entry := by
    rw [h.recovered, recoveredRow, hget, Option.map_some, if_neg]
    intro hid
    obtain ⟨entry', hget', hexpired⟩ := mem_recoverCandidates.mp (List.mem_of_mem_take hid)
    obtain rfl := Option.some.inj (hget.symm.trans hget')
    exact absurd (hexpired.1.symm.trans hdone) (by decide)
  rw [h.others id, hjobs]
  intro hid
  obtain ⟨entry', hentry', rfl⟩ := List.mem_map.mp hid
  obtain ⟨hmem, hclaim⟩ := h.selects.rows.2 entry' hentry'
  obtain rfl := Option.some.inj ((Table.get_of_mem hmem).symm.trans hjobs)
  exact absurd (hclaim.1.symm.trans hdone) (by decide)

/-! ## What all cycles do -/

/-- What a number of cycles has done: each job that the worker had to execute has succeeded, or the cycles have
each done a part of the work. -/
structure CyclesDone (args : ClaimArgs) (n : ℕ) (s s' : State) : Prop where
  reachable : Reachable s'
  idle : Quiescent s'
  ended : LeasesEnded s'
  jobs : ∀ id entry, s.jobs.get id = some entry → Deliverable args s entry.row →
    ∃ entry', s'.jobs.get id = some entry' ∧ (entry'.row.status = .succeeded ∨
      Deliverable args s' entry'.row ∧ workLeft s'.jobs + n ≤ workLeft s.jobs)

/-- After a number of cycles so much of the work is done. -/
theorem WorkCycles.done {n : ℕ} (h : WorkCycles args n s s') (hs : Reachable s) (hidle : Quiescent s)
    (hended : LeasesEnded s) (hbatch : 0 < args.batchSize) (hrecover : 0 < args.recoverBatchSize) :
    CyclesDone args n s s' := by
  induction h with
  | none s => exact ⟨hs, hidle, hended, fun id entry hget hdeliver => ⟨entry, hget, .inr ⟨hdeliver, le_refl _⟩⟩⟩
  | @more n s s' s'' before last ih =>
    have hbefore := ih hs hidle hended
    obtain ⟨jobs, claimed, hlast⟩ := last.done hbefore.reachable hbefore.idle hbatch
    refine ⟨hlast.reachable, hlast.idle, fun id entry hget hleased => ?_, fun id entry hget hdeliver => ?_⟩
    · have hold := (hlast.get_of_leased hget hleased).1
      exact (hbefore.ended id entry hold hleased).mono hlast.clock_le
    · obtain ⟨entry', hget', hdone | ⟨hdeliver', hwork⟩⟩ := hbefore.jobs id entry hget hdeliver
      · exact ⟨entry', hlast.get_of_succeeded hget' hdone, .inl hdone⟩
      · have hworks := hlast.works hbefore.reachable hbefore.ended hbatch hrecover hget' hdeliver'
        have hless := hlast.workLeft_lt hworks
        obtain ⟨entry'', hget'', hcase⟩ := hlast.deliverable hget' hdeliver'
        exact ⟨entry'', hget'', hcase.imp_right fun hdeliver'' => ⟨hdeliver'', by omega⟩⟩

/-- A worker that is alone can go on through cycles as long as it likes. -/
theorem exists_workCycles (hs : Reachable s) (hidle : Quiescent s) (hended : LeasesEnded s)
    (hbatch : 0 < args.batchSize) (hrecover : 0 < args.recoverBatchSize) (n : ℕ) : ∃ s', WorkCycles args n s s' := by
  induction n with
  | zero => exact ⟨s, .none s⟩
  | succ n ih =>
    obtain ⟨s', hcycles⟩ := ih
    have hdone := hcycles.done hs hidle hended hbatch hrecover
    obtain ⟨s'', hcycle⟩ := exists_workCycle hdone.reachable hdone.idle hbatch
    exact ⟨s'', hcycles.more hcycle⟩

/-- A worker that is alone and whose jobs succeed can take as many cycles as it likes, and as many as there is
work left execute every job of its queues that is due and has an attempt left, also those that a crash has left
leased. -/
theorem all_delivered (hs : Reachable s) (hidle : Quiescent s) (hended : LeasesEnded s) (hbatch : 0 < args.batchSize)
    (hrecover : 0 < args.recoverBatchSize) {n : ℕ} (hn : workLeft s.jobs ≤ n) :
    (∃ s', WorkCycles args n s s') ∧
    ∀ s', WorkCycles args n s s' → ∀ id entry, s.jobs.get id = some entry → Deliverable args s entry.row →
      ∃ entry', s'.jobs.get id = some entry' ∧ entry'.row.status = .succeeded := by
  refine ⟨exists_workCycles hs hidle hended hbatch hrecover n, fun s' hcycles id entry hget hdeliver => ?_⟩
  obtain ⟨entry', hget', hdone | ⟨hdeliver', hwork⟩⟩ :=
    (hcycles.done hs hidle hended hbatch hrecover).jobs id entry hget hdeliver
  · exact ⟨entry', hget', hdone⟩
  · -- The job itself would be work that is left.
    have hleft : workLeft s'.jobs = 0 := by omega
    have hunfinished : isUnfinished entry' = true := by
      rcases hdeliver'.status with hstatus | hstatus <;> simp [isUnfinished, hstatus, hdeliver'.attempt]
    have hnone : s'.jobs.count isUnfinished = 0 := (Nat.add_eq_zero_iff.mp hleft).2
    rw [Table.count, List.length_eq_zero_iff, List.filter_eq_nil_iff] at hnone
    exact absurd hunfinished (hnone entry' ((Table.get_eq_some_iff _ _ _).mp hget').1)

/-- One job was claimed by a worker that died, another one waits; the lease has ended. -/
def orphanedRun : List Action :=
  claimedRun ++ transaction 2 (.enqueue (handlerJob "mail" 2)) 5 ++ [.tick 61000000]

/-- A leased job of a worker that is gone and a pending one, with one job in a round. -/
theorem all_delivered_orphanedRun : ∃ s', WorkCycles ⟨"v", ["mail"], 1, 60, 1⟩ 3 (stateAfter 0 orphanedRun) s' ∧
    ∀ id < 2, ∃ entry, s'.jobs.get id = some entry ∧ entry.row.status = .succeeded := by
  have hreach := reachable_stateAfter 0 orphanedRun
  have hclosed : ∀ t < 3, ((stateAfter 0 orphanedRun).txns t).isNone = true := by decide +kernel
  have hidle : Quiescent (stateAfter 0 orphanedRun) := hreach.quiescent (by decide +kernel : _ ≤ 3) fun t ht =>
    Option.isNone_iff_eq_none.mp (hclosed t ht)
  have hrows : ∀ entry ∈ (stateAfter 0 orphanedRun).jobs.rows,
      entry.row.status = .leased → LeaseExpired (stateAfter 0 orphanedRun).clock entry.row := by
    decide +kernel
  have hended : LeasesEnded (stateAfter 0 orphanedRun) := fun id entry hget hleased =>
    hrows entry ((Table.get_eq_some_iff _ _ _).mp hget).1 hleased
  have hdeliver : ∀ id < 2, ((stateAfter 0 orphanedRun).jobs.get id).any (fun entry =>
      (entry.row.status = .pending ∨ entry.row.status = .leased) ∧ entry.row.attemptCount < entry.row.maxAttempts ∧
        entry.row.availableAt ≤ (stateAfter 0 orphanedRun).clock ∧
        ServesQueue ["mail"] (stateAfter 0 orphanedRun).queues entry.row.queueName) = true := by
    decide +kernel
  obtain ⟨⟨s', hcycles⟩, hdone⟩ := all_delivered hreach hidle hended
    (by decide : 0 < (⟨"v", ["mail"], 1, 60, 1⟩ : ClaimArgs).batchSize) (by decide) (by decide +kernel : _ ≤ 3)
  refine ⟨s', hcycles, fun id hid => ?_⟩
  obtain ⟨entry, hget, hentry⟩ := (Option.any_eq_true _ _).mp (hdeliver id hid)
  obtain ⟨hstatus, hattempt, hdue, hserved⟩ := of_decide_eq_true hentry
  exact hdone s' hcycles id entry hget ⟨hstatus, hattempt, hdue, hserved⟩

end PgRelay
