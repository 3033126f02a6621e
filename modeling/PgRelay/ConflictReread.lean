import PgRelay.EnqueueReports

/-!
# The second read of a conflicting insert

When its conditional insert returns no row, `insert_job` reads the job that has the key with a second
statement, and raises an error if there is none. Between the two statements a purge may delete that
job. Unless it does, the second read finds a job with the key, and every call returns a created or an
existing row.
-/

namespace PgRelay

open RowStore

variable {s s' : State} {t : TxnId} {T : Txn} {effect : Effect} {job : NewJob}

/-- No commit removes a job with the key of an insertion that has met a conflict and not read again. -/
def keepsConflicts (s : State) : Action → Bool
  | .commit t => (s.txns t).all fun T => (List.range s.nextTxn).all fun t' => (s.txns t').all fun T' =>
    match T'.task with
    | .insert job .conflicted => s.jobs.rows.all fun entry =>
        decide (entry.row.indexKey ≠ job.indexKey) || ((T.view s).get entry.id).isSome
    | _ => true
  | _ => true

/-- What `insert_job` relies on between its statements: the queue is there, and so is a job with a key
that was found to be taken. -/
def InsertPc.OnTrack (s : State) (T : Txn) (job : NewJob) : InsertPc → Prop
  | .queueUpserted => (T.queueView s).get job.queueName ≠ none
  | .conflicted => ∃ p id, job.indexKey = some p ∧ indexKeyAt (T.view s) id = some p
  | .failed => False
  | .begin | .queueRead | .inserting | .queueChecked | .finished _ _ => True

/-- An open transaction that enqueues is on track. -/
def InsertOnTrack (s : State) (_ : TxnId) (T : Txn) : Prop :=
  ∀ job pc, T.task = .insert job pc → pc.OnTrack s T job

/-- Every step of an insertion keeps it on track. -/
theorem InsertMove.onTrack {pc pc' : InsertPc} (h : InsertMove s t T job pc effect) (hold : pc.OnTrack s T job)
    (htask : effect.task = .insert job pc') : pc'.OnTrack (s.perform t T effect) (T.after effect) job := by
  cases h with
  | upsert htask' _ _ hqueue =>
    obtain rfl := (Task.insert.inj (htask'.symm.trans htask)).2
    change ((T.after effect).queueView (s.perform t T effect)).get job.queueName ≠ none
    rw [queueView_perform]
    rcases hqueue with ⟨hwrites, hknown⟩ | hwrites
    · rw [hwrites]
      exact hknown
    · rw [hwrites]
      simp [Table.get_put, newQueue]
  | readQueue _ =>
    obtain rfl := (Task.insert.inj htask).2
    trivial
  | loseQueue hqueue => exact absurd hqueue hold
  | reserve _ =>
    obtain rfl := (Task.insert.inj htask).2
    trivial
  | share _ =>
    obtain rfl := (Task.insert.inj htask).2
    trivial
  | insert hnew =>
    obtain rfl := (Task.insert.inj ((insertNew_eq_some hnew).1.symm.trans htask)).2
    trivial
  | @conflict p id hkey _ htaken =>
    obtain rfl := (Task.insert.inj htask).2
    refine ⟨p, id, hkey, ?_⟩
    rw [view_perform_of_nil rfl]
    exact htaken
  | find _ _ _ =>
    obtain rfl := (Task.insert.inj htask).2
    trivial
  | lose hlost =>
    obtain ⟨p, id, hkey, htaken⟩ := hold
    exact absurd htaken (hlost p hkey id)

/-- What a commit that deletes no job of a key leaves to those who have seen one. -/
theorem Reachable.indexKeyAt_of_commit {u : TxnId} {U : Txn} (h : Reachable s) (hU : s.txns u = some U)
    (hT : s.txns t = some T) (hne : t ≠ u) {p : QueueName × String} {id : JobId}
    (hkey : indexKeyAt (T.view s) id = some p)
    (hkept : ∀ entry, s.jobs.get id = some entry → entry.row.indexKey = some p → (U.view s).get id ≠ none) :
    indexKeyAt (T.view (s.commit u U)) id = some p := by
  rcases h.inv.view_commit hU hne hT id with ⟨hlock, hview⟩ | ⟨hlock, hview⟩
  · rw [indexKeyAt, hview]
    exact hkey
  · rw [indexKeyAt, (h.inv.txn t T hT).view_of_unlocked hlock] at hkey
    obtain ⟨entry, hget, hp⟩ := Option.bind_eq_some_iff.mp hkey
    obtain ⟨after, hafter⟩ := Option.ne_none_iff_exists'.mp (hkept entry hget hp)
    obtain ⟨before, hbefore, hsame⟩ := Evolves.constant JobRow.indexKey
      (fun _ _ _ hacts => hacts.indexKey_eq) ((h.inv.txn u U hU).consistent.evolves id)
      (fun _ hop => (h.inv.txn u U hU).not_inserted (h.inv.logged hget) hop) hafter
    obtain rfl := Option.some.inj (hget.symm.trans hbefore)
    rw [indexKeyAt, hview, hafter]
    exact hsame.trans hp

/-- The condition on a commit, for one insertion that has met a conflict. -/
theorem get_ne_none_of_keepsConflicts {u : TxnId} {U : Txn} (hinv : Inv s) (hU : s.txns u = some U)
    (hT : s.txns t = some T) (htask : T.task = .insert job .conflicted)
    (hok : keepsConflicts s (.commit u) = true) {id : JobId} {entry : JobEntry}
    (hget : s.jobs.get id = some entry) (hkey : entry.row.indexKey = job.indexKey) :
    (U.view s).get id ≠ none := by
  obtain ⟨hmem, rfl⟩ := (Table.get_eq_some_iff _ _ _).mp hget
  simp only [keepsConflicts, hU, Option.all_some, List.all_eq_true, List.mem_range] at hok
  have hkept := hok t (hinv.lt_nextTxn hT)
  simp only [hT, Option.all_some, htask, List.all_eq_true] at hkept
  have hentry := hkept entry hmem
  rw [hkey] at hentry
  simpa [Option.isSome_iff_ne_none] using hentry

/-- The others keep an insertion on track. -/
theorem InsertOnTrack.elsewhere {a : Action} (h : InsertOnTrack s t T) (hreach : Reachable s)
    (hok : keepsConflicts s a = true) (hs : step s a = some s') (hT : s.txns t = some T)
    (hT' : s'.txns t = some T) (he : Elsewhere s s' t T) : InsertOnTrack s' t T := by
  intro job pc htask
  have hold := h job pc htask
  cases pc with
  | queueUpserted => exact Table.get_foldl_put_mono _ (he.known job.queueName) hold
  | conflicted =>
    obtain ⟨p, id, hkey, htaken⟩ := hold
    refine ⟨p, id, hkey, ?_⟩
    rcases jobs_of_step hs with ⟨u, U, rfl, hU, -, rfl⟩ | ⟨-, hjobs, -⟩
    · obtain ⟨hne, -⟩ := txns_close (t := u) hT'
      refine hreach.indexKeyAt_of_commit hU hT hne htaken fun entry hget hp => ?_
      exact get_ne_none_of_keepsConflicts hreach.inv hU hT htask hok hget (hp.trans hkey.symm)
    · rw [Txn.view, hjobs]
      exact htaken
  | failed => exact hold
  | begin | queueRead | inserting | queueChecked | finished => trivial

/-- While no purge interferes, every insertion is on track. -/
theorem insertOnTrack_of_reaches {clock : Timestamp}
    (h : ReachesUnder step (fun s a => keepsConflicts s a = true) (State.init clock) s) :
    ∀ t T, s.txns t = some T → InsertOnTrack s t T := by
  refine ReachesUnder.txn_rule ?_ ?_ ?_ h
  · intro s request task hreach _ hr job pc htask
    obtain rfl : pc = .begin := Request.atBegin (hr.trans (congrArg some htask))
    trivial
  · intro s t T a effect hreach hT _ he hold job pc' htask
    rcases he.steps.insertMove_of_task htask with rfl | ⟨pc, hpc, hmove⟩
    · trivial
    · exact hmove.onTrack (hold job pc hpc) htask
  · intro s a s' t T hreach hok hs hT hT' he hold
    exact hold.elsewhere hreach hok hs hT hT' he

/-! ## What a call returns -/

/-- The statements that are still to come. -/
def InsertPc.rank : InsertPc → ℕ
  | .begin => 5
  | .queueUpserted => 4
  | .queueRead => 3
  | .inserting => 2
  | .queueChecked | .conflicted => 1
  | .finished _ _ | .failed => 0

/-- The row that a call returns: one that it creates with this step, or one that is there and has the
queue and the key that were asked for. -/
def Returns (s : State) (t : TxnId) (T : Txn) (job : NewJob) (effect : Effect) (id : JobId) : Bool → Prop
  | true => (T.view s).get id = none ∧
      effect.changes = [⟨⟨t, T.now, .inserted id job⟩, some ⟨insertJob id T.now job, []⟩⟩]
  | false => effect.changes = [] ∧ ∃ entry, (T.view s).get id = some entry ∧
      entry.row.queueName = job.queueName ∧ entry.row.idempotencyKey = job.idempotencyKey

/-- The other transaction holds a lock that a call may have to wait for: that of its queue, that of its index
entry, or that of a job that has the entry. -/
def HoldsUp (s : State) (T : Txn) (job : NewJob) (t' : TxnId) : Prop :=
  s.queueLocks job.queueName = some t' ∨ ∃ p, job.indexKey = some p ∧
    (s.keyLocks p = some t' ∨ ∃ id, indexKeyAt (T.view s) id = some p ∧ s.jobLocks id = some t')

/-- A call of `insert_job` at any point: it has not raised an error, its next statement brings it nearer
to its end and returns only such a row, and it waits only for a lock of another transaction, unless
the insertion breaks a constraint of the table. -/
structure InsertReturns (s : State) (t : TxnId) (T : Txn) (job : NewJob) (pc : InsertPc) : Prop where
  notFailed : pc ≠ .failed
  advances : ∀ effect, statement s t T = some effect → ∃ pc', effect.task = .insert job pc' ∧
    pc'.rank < pc.rank ∧ pc' ≠ .failed ∧
      ∀ id created, pc' = .finished id created → Returns s t T job effect id created
  waits : statement s t T = none → (∃ id created, pc = .finished id created) ∨ (∃ t' ≠ t, HoldsUp s T job t') ∨
    ¬ (0 < job.maxAttempts ∧ sourceAlive s t T job.replayedFromJobId = true)

/-- A lock that is not free is held by another transaction. -/
theorem exists_holder {α : Type} {locks : α → Option TxnId} {k : α} (h : ¬ Free locks k t) :
    ∃ t' ≠ t, locks k = some t' := by
  cases hlock : locks k with
  | none => exact absurd (.inl hlock) h
  | some t' =>
    refine ⟨t', ?_, rfl⟩
    rintro rfl
    exact h (.inr hlock)

/-- A lock whose holder does not pass the test is held by another transaction. -/
theorem exists_holder_of_not_passes {α : Type} {locks : α → Option TxnId} {k : α} {test : Txn → Bool}
    (h : ¬ s.passes locks k t test = true) :
    ∃ t' ≠ t, locks k = some t' ∧ ∃ H, s.txns t' = some H ∧ test H = false := by
  rw [State.passes_eq_true] at h
  push Not at h
  obtain ⟨t', H, hlock, hne, hH, htest⟩ := h
  exact ⟨t', hne, hlock, H, hH, by simpa using htest⟩

/-- A call that has not returned and does not wait for a lock goes on, if the row may be inserted. -/
theorem insertStatement_waits {pc : InsertPc} (hpc : pc ≠ .failed) (h : insertStatement s t T job pc = none) :
    (∃ id created, pc = .finished id created) ∨ (∃ t' ≠ t, HoldsUp s T job t') ∨
      ¬ (0 < job.maxAttempts ∧ sourceAlive s t T job.replayedFromJobId = true) := by
  unfold insertStatement at h
  split at h
  · unfold upsertQueue at h
    split at h
    · split_ifs at h with hsettled
      obtain ⟨t', hne, hlock, -⟩ := exists_holder_of_not_passes hsettled
      exact .inr (.inl ⟨t', hne, .inl hlock⟩)
    · split_ifs at h with hfree
      obtain ⟨t', hne, hlock⟩ := exists_holder hfree
      exact .inr (.inl ⟨t', hne, .inl hlock⟩)
  · split at h <;> cases h
  · split at h
    · cases h
    · rename_i key hkey
      have hindex : job.indexKey = some (job.queueName, key) := by simp [NewJob.indexKey, hkey]
      split_ifs at h with hfree
      · split at h
        · rename_i entry hfound
          split_ifs at h with hsettled
          obtain ⟨t', hne, hlock, -⟩ := exists_holder_of_not_passes hsettled
          obtain ⟨hget, hp⟩ := findByKey_eq_some hfound
          refine .inr (.inl ⟨t', hne, .inr ⟨_, hindex, .inr ⟨entry.id, ?_, hlock⟩⟩⟩)
          exact (indexKeyAt_of_get hget).trans hp
        · cases h
      · obtain ⟨t', hne, hlock⟩ := exists_holder hfree
        exact .inr (.inl ⟨t', hne, .inr ⟨_, hindex, .inl hlock⟩⟩)
  · split_ifs at h with hshareable
    obtain ⟨t', hne, hlock, -⟩ := exists_holder_of_not_passes hshareable
    exact .inr (.inl ⟨t', hne, .inl hlock⟩)
  · unfold insertNew at h
    split_ifs at h with hchecks
    exact .inr (.inr hchecks)
  · split at h <;> cases h
  · exact .inl ⟨_, _, rfl⟩
  · exact absurd rfl hpc

/-- Equal index entries of non-null keys are equal queues and keys. -/
theorem columns_of_indexKey {j : JobRow} {p : QueueName × String} (hjob : job.indexKey = some p)
    (hrow : j.indexKey = some p) : j.queueName = job.queueName ∧ j.idempotencyKey = job.idempotencyKey := by
  obtain ⟨key, hkey, rfl⟩ := Option.map_eq_some_iff.mp hjob
  obtain ⟨key', hkey', heq⟩ := Option.map_eq_some_iff.mp hrow
  obtain ⟨hqueue, rfl⟩ := Prod.mk.inj heq
  exact ⟨hqueue, hkey'.trans hkey.symm⟩

/-- A statement of an insertion on track brings it nearer to its end, and returns what it has to. -/
theorem InsertMove.advances {pc : InsertPc} (h : InsertMove s t T job pc effect) (hinv : Inv s)
    (hT : TxnOk s t T) (hold : pc.OnTrack s T job) : ∃ pc', effect.task = .insert job pc' ∧
      pc'.rank < pc.rank ∧ pc' ≠ .failed ∧
      ∀ id created, pc' = .finished id created → Returns s t T job effect id created := by
  cases h with
  | upsert htask =>
    refine ⟨.queueUpserted, htask, by decide, by decide, fun id created hpc => ?_⟩
    cases hpc
  | readQueue _ =>
    refine ⟨.queueRead, rfl, by decide, by decide, fun id created hpc => ?_⟩
    cases hpc
  | loseQueue hqueue => exact absurd hqueue hold
  | reserve _ =>
    refine ⟨.inserting, rfl, by decide, by decide, fun id created hpc => ?_⟩
    cases hpc
  | share _ =>
    refine ⟨.queueChecked, rfl, by decide, by decide, fun id created hpc => ?_⟩
    cases hpc
  | insert hnew =>
    obtain ⟨htask, -, hchanges⟩ := insertNew_eq_some hnew
    refine ⟨.finished s.nextJob true, htask, by simp [InsertPc.rank], by simp, fun id created hpc => ?_⟩
    obtain ⟨rfl, rfl⟩ := InsertPc.finished.inj hpc
    obtain ⟨hnone, hlock, -⟩ := hinv.ids s.nextJob le_rfl
    exact ⟨(hT.view_of_unlocked (by simp [hlock])).trans hnone, hchanges⟩
  | conflict _ _ _ =>
    refine ⟨.conflicted, rfl, by decide, by decide, fun id created hpc => ?_⟩
    cases hpc
  | @find p entry hkey hget hfound =>
    refine ⟨.finished entry.id false, rfl, by simp [InsertPc.rank], by simp, fun id created hpc => ?_⟩
    obtain ⟨rfl, rfl⟩ := InsertPc.finished.inj hpc
    exact ⟨rfl, entry, hget, columns_of_indexKey hkey hfound⟩
  | lose hlost =>
    obtain ⟨p, id, hkey, htaken⟩ := hold
    exact absurd htaken (hlost p hkey id)

/-- In every run in which no purge removes a job between a conflict over its key and the second read,
`insert_job` raises no error of its own: it returns a row that it has created, or an existing one with
the same queue and key. -/
theorem insert_job_returns {clock : Timestamp}
    (h : ReachesUnder step (fun s a => keepsConflicts s a = true) (State.init clock) s) {t : TxnId} {T : Txn}
    (hT : s.txns t = some T) {job : NewJob} {pc : InsertPc} (htask : T.task = .insert job pc) :
    InsertReturns s t T job pc := by
  have hinv := Reachable.inv ⟨clock, h.reaches⟩
  have hold := insertOnTrack_of_reaches h t T hT job pc htask
  have hfailed : pc ≠ .failed := by
    rintro rfl
    exact hold
  refine ⟨hfailed, fun effect he => ?_, fun he => ?_⟩
  · simp only [statement, htask] at he
    exact (insertStatement_moves he).advances hinv (hinv.txn t T hT) hold
  · simp only [statement, htask] at he
    exact insertStatement_waits hfailed he

/-- Where an open transaction stands in its insertion. -/
def State.insertPc (s : State) (t : TxnId) : Option InsertPc :=
  (s.txns t).bind fun T =>
    match T.task with
    | .insert _ pc => some pc
    | _ => none

/-- What the point of an insertion says of its transaction. -/
theorem insertPc_eq_some {pc : InsertPc} (h : s.insertPc t = some pc) :
    ∃ T job, s.txns t = some T ∧ T.task = .insert job pc := by
  obtain ⟨T, hT, hpc⟩ := Option.bind_eq_some_iff.mp h
  split at hpc
  · rename_i job pc' htask
    obtain rfl := Option.some.inj hpc
    exact ⟨T, job, hT, htask⟩
  · cases hpc

/-- The key of the job that a transaction inserts. -/
def Task.insertKey : Task → Option String
  | .insert job _ => job.idempotencyKey
  | _ => none

/-- The key of the job that an open transaction inserts. -/
def State.insertKey (s : State) (t : TxnId) : Option String := (s.txns t).bind fun T => T.task.insertKey

/-- The second enqueue of a key has met the job of the first one. -/
def conflictedRun : List Action :=
  transaction 0 (.enqueue (keyedJob "mail" "k")) 5 ++ .begin (.enqueue (keyedJob "mail" "k")) ::
    List.replicate 3 (.advance 1)

/-- An insertion that conflicts with a job that stays, and returns it. -/
theorem insert_job_returns_conflictedRun : ∃ s T job,
    runChecked step keepsConflicts (State.init 0) conflictedRun = some s ∧ s.txns 1 = some T ∧
      T.task = .insert job .conflicted ∧ InsertReturns s 1 T job .conflicted := by
  have hrun : (runChecked step keepsConflicts (State.init 0) conflictedRun).map (fun s => s.insertPc 1) =
      some (some .conflicted) := by
    decide +kernel
  obtain ⟨s, hs, hpc⟩ := Option.map_eq_some_iff.mp hrun
  obtain ⟨T, job, hT, htask⟩ := insertPc_eq_some hpc
  exact ⟨s, T, job, hs, hT, htask,
    insert_job_returns (reachesUnder_of_runChecked (fun _ _ h => h) hs) hT htask⟩

/-- The job with the key is an old cancelled one, which a purge deletes between the conflict and the
second read. -/
def purgedConflict : List Action :=
  transaction 0 (.enqueue (keyedJob "mail" "k")) 5 ++ transaction 1 (.cancel 0) 3 ++
    .tick (8 * 86400 * 1000000) :: .begin (.enqueue (keyedJob "mail" "k")) :: List.replicate 3 (.advance 2) ++
    transaction 3 (.purge ⟨7, 7, 10⟩) 4 ++ [.advance 2]

/-- A purge deletes the conflicting job before it is read again, and the insertion fails. -/
theorem not_returns_purgedConflict : ¬ ∀ s t T job, Reachable s → s.txns t = some T →
    job.idempotencyKey ≠ none → T.task ≠ .insert job .failed := by
  intro hall
  have hrun : (stateAfter 0 purgedConflict).insertPc 2 = some .failed ∧
      (stateAfter 0 purgedConflict).insertKey 2 = some "k" := by
    decide +kernel
  obtain ⟨T, job, hT, htask⟩ := insertPc_eq_some hrun.1
  have hkey : job.idempotencyKey = some "k" := by simpa [State.insertKey, hT, Task.insertKey, htask] using hrun.2
  exact hall _ 2 T job (reachable_stateAfter 0 purgedConflict) hT (by simp [hkey]) htask

end PgRelay
