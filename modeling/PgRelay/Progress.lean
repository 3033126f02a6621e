import PgRelay.Termination
import PgRelay.References
import PgRelay.ClaimDeadlock
import PgRelay.ConflictReread

/-!
# Somebody can always go on

A transaction that cannot take its next step waits for a lock, has come to its end, or is refused by a
constraint. Each lock that it waits for belongs to another open transaction, so one of the transactions it
waits for, directly or through others, can go on, unless some of them wait in a circle. Only claim rounds,
insertions and purges take part in a circle: the reports of the executions, the cancels and the updates of
queues hold no lock while they wait.

A claim round keeps waiting, and waits for, the insertions into its queues: their foreign-key checks share the
rows that it locks. The order in which those who wait for one row are served is left open.
-/

namespace PgRelay

open RowStore

/-- The locks of the system. -/
inductive Lock
  | job (id : JobId)
  | share (source : JobId)
  | queue (name : QueueName)
  | queueShare (name : QueueName)
  | key (entry : QueueName × String)

variable {s s' : State} {t u : TxnId} {T : Txn} {effect : Effect} {l : Lock}

/-- The transaction holds the lock. -/
def Lock.HeldBy (s : State) (u : TxnId) : Lock → Prop
  | .job id => s.jobLocks id = some u
  | .share source => u ∈ s.keyShares source
  | .queue name => s.queueLocks name = some u
  | .queueShare name => u ∈ s.queueShares name
  | .key entry => s.keyLocks entry = some u

/-- The locks that others must not hold for the next step of a transaction. An insertion waits for an uncommitted
version of its queue, for its index entry or an uncommitted version of the job that has it, for a claim round in
its queue, and that of a replay for a purge that is deleting its source. -/
def Txn.needs (s : State) (t : TxnId) (T : Txn) : List Lock :=
  match T.task with
  | .claimLoop _ (.lockingQueues (q :: _)) | .claimLoop _ (.claiming _ (q :: _) _ _) => [.queue q, .queueShare q]
  | .call x _ .matched => [.job x.job.id]
  | .cancel id .matched => [.job id]
  | .insert job .begin | .insert job .inserting => [.queue job.queueName]
  | .insert job .queueRead =>
    match job.idempotencyKey with
    | none => []
    | some key =>
      if Free s.keyLocks (job.queueName, key) t then
        ((findByKey (T.view s) job.queueName key).map fun entry => .job entry.id).toList
      else [.key (job.queueName, key)]
  | .insert job .queueChecked =>
    if sourceAlive s t T job.replayedFromJobId = true then [] else (job.replayedFromJobId.map .job).toList
  | .updateQueue args .begin | .updateQueue args .matched => [.queue args.name]
  | .purge _ (.deleting ((id, _) :: _) _) => [.job id, .share id]
  | .purge _ (.cascading (id :: _) _) => [.job id]
  | _ => []

/-- The transaction cannot go on, and the other one holds a lock that it needs. -/
def Awaits (s : State) (t u : TxnId) : Prop :=
  u ≠ t ∧ ∃ T, s.txns t = some T ∧ statement s t T = none ∧ ∃ l ∈ T.needs s t, l.HeldBy s u

/-- The program has come to its end, by its commit or by an exception that it raises. -/
def Task.over : Task → Bool
  | .replay _ _ .notFound | .replay _ _ .conflict | .updateQueue _ .failed => true
  | task => task.committable

/-- The next write breaks a check constraint or the reference to the source of a replay. -/
def Txn.Refused (s : State) (T : Txn) : Prop :=
  match T.task with
  | .insert job .queueChecked => job.maxAttempts ≤ 0 ∨
      ∃ source, job.replayedFromJobId = some source ∧ (T.view s).get source = none
  | .updateQueue args .matched => ∃ row, (T.queueView s).get args.name = some row ∧
      args.concurrencyLimit.getD row.concurrencyLimit ≤ 0
  | _ => False

/-- Why a transaction does not take its next step. -/
def Stopped (s : State) (t : TxnId) (T : Txn) : Prop :=
  T.task.over = true ∨ T.Refused s ∨ ∃ l ∈ T.needs s t, ∃ u, u ≠ t ∧ l.HeldBy s u

/-- A row lock of another transaction is a reason. -/
theorem stopped_of_job {id : JobId} (hneeds : .job id ∈ T.needs s t) (hheld : ¬ Free s.jobLocks id t) :
    Stopped s t T := by
  obtain ⟨u, hne, hu⟩ := exists_holder hheld
  exact .inr (.inr ⟨.job id, hneeds, u, hne, hu⟩)

/-- The lock of a queue that another transaction has is a reason. -/
theorem stopped_of_queue {q : QueueName} (hneeds : .queue q ∈ T.needs s t) (hheld : ¬ Free s.queueLocks q t) :
    Stopped s t T := by
  obtain ⟨u, hne, hu⟩ := exists_holder hheld
  exact .inr (.inr ⟨.queue q, hneeds, u, hne, hu⟩)

/-- A queue that is not free and unshared is locked or shared by another transaction. -/
theorem stopped_of_shared {q : QueueName} (hneeds : T.needs s t = [.queue q, .queueShare q])
    (hheld : ¬ (Free s.queueLocks q t ∧ Unshared s.queueShares q t)) : Stopped s t T := by
  by_cases hfree : Free s.queueLocks q t
  · have hshared : ¬ Unshared s.queueShares q t := fun hunshared => hheld ⟨hfree, hunshared⟩
    obtain ⟨u, hu, hne⟩ : ∃ u ∈ s.queueShares q, u ≠ t := by simpa [Unshared] using hshared
    exact .inr (.inr ⟨.queueShare q, by simp [hneeds], u, hne, hu⟩)
  · exact stopped_of_queue (by simp [hneeds]) hfree

/-- A lock whose holder does not pass a test is a reason. -/
theorem stopped_of_not_passes {q : QueueName} {test : Txn → Bool} (hneeds : T.needs s t = [.queue q])
    (hheld : ¬ s.passes s.queueLocks q t test = true) : Stopped s t T := by
  obtain ⟨u, hne, hu, -⟩ := exists_holder_of_not_passes hheld
  exact .inr (.inr ⟨.queue q, by simp [hneeds], u, hne, hu⟩)

/-- A source that is not alive is gone, or somebody else is deleting it. -/
theorem exists_deleter {source : JobId} (h : sourceAlive s t T (some source) ≠ true) :
    (T.view s).get source = none ∨ ∃ u, u ≠ t ∧ s.jobLocks source = some u := by
  by_cases hgone : (T.view s).get source = none
  · exact .inl hgone
  · have hholder : ¬ s.passes s.jobLocks source t (fun H => ((H.view s).get source).isSome) = true := by
      simpa [sourceAlive, Option.isSome_iff_ne_none.mpr hgone] using h
    obtain ⟨u, hne, hu, -⟩ := exists_holder_of_not_passes hholder
    exact .inr ⟨u, hne, hu⟩

/-- The visit of a candidate waits for nobody. -/
theorem claimScan_ne_none {args : ClaimArgs} {snapshot : JobTable} {todo : List QueueName} {picked : List JobId}
    (a : ActiveQueue) (active : List ActiveQueue) :
    claimScan s t T args snapshot todo picked (a :: active) ≠ none := by
  intro hnone
  unfold claimScan at hnone
  split at hnone
  · exact List.cons_ne_nil _ _ ‹_›
  · cases hnone
  · cases hnone
  · split_ifs at hnone
    split at hnone
    · cases hnone
    · split_ifs at hnone

/-- A claim round waits for the lock of a queue only. -/
theorem stopped_claim {args : ClaimArgs} {pc : ClaimPc} (hT : T.task = .claimLoop args pc)
    (hnone : claimStatement s t T args pc = none) : Stopped s t T := by
  unfold claimStatement at hnone
  split at hnone
  · cases hnone
  · cases hnone
  · cases hnone
  · repeat' split at hnone
    all_goals cases hnone
  · split_ifs at hnone with hbatch
    exact .inl (by simp [Task.over, Task.committable, hT, hbatch])
  · cases hnone
  · split_ifs at hnone with hfree
    exact stopped_of_shared (by simp [Txn.needs, hT]) hfree
  · cases hnone
  · split_ifs at hnone with hfree
    · repeat' split at hnone
      all_goals cases hnone
    · exact stopped_of_shared (by simp [Txn.needs, hT]) hfree
  · cases hnone
  · exact absurd hnone (claimScan_ne_none _ _)
  · exact .inl (by simp [Task.over, Task.committable, hT])

/-- The end of an insertion waits for the purge that is deleting its source, or is refused. -/
theorem stopped_insertNew {job : NewJob} (hT : T.task = .insert job .queueChecked)
    (hnone : insertNew s t T job = none) : Stopped s t T := by
  unfold insertNew at hnone
  split_ifs at hnone with hok
  by_cases hpos : 0 < job.maxAttempts
  · have hdead : sourceAlive s t T job.replayedFromJobId ≠ true := fun halive => hok ⟨hpos, halive⟩
    cases hsource : job.replayedFromJobId with
    | none => exact absurd (by rw [hsource]; rfl) hdead
    | some source =>
      rw [hsource] at hdead
      rcases exists_deleter hdead with hgone | ⟨u, hne, hu⟩
      · exact .inr (.inl (by simp [Txn.Refused, hT, hsource, hgone]))
      · exact .inr (.inr ⟨.job source, by simp [Txn.needs, hT, hsource, hdead], u, hne, hu⟩)
  · exact .inr (.inl (by simp [Txn.Refused, hT, not_lt.mp hpos]))

/-- The insertion of a queue waits for an uncommitted version of it. -/
theorem stopped_upsertQueue {name : QueueName} {next : Task} (hneeds : T.needs s t = [.queue name])
    (hnone : upsertQueue s t T name next = none) : Stopped s t T := by
  unfold upsertQueue at hnone
  split at hnone
  · split_ifs at hnone with hsettled
    exact stopped_of_not_passes hneeds hsettled
  · split_ifs at hnone with hfree
    exact stopped_of_queue (by simp [hneeds]) hfree

/-- A call waits for the lock of its job only. -/
theorem stopped_call {x : Execution} {op : CallOp} {pc : CallPc} (hT : T.task = .call x op pc)
    (hnone : callStatement s t T x op pc = none) : Stopped s t T := by
  unfold callStatement at hnone
  split at hnone
  · repeat' split at hnone
    all_goals cases hnone
  · split_ifs at hnone with hfree
    · repeat' split at hnone
      all_goals cases hnone
    · exact stopped_of_job (by simp [Txn.needs, hT]) hfree
  · exact .inl (by simp [Task.over, Task.committable, hT])

/-- A cancel waits for the lock of its job only. -/
theorem stopped_cancel {id : JobId} {pc : CancelPc} (hT : T.task = .cancel id pc)
    (hnone : cancelStatement s t T id pc = none) : Stopped s t T := by
  unfold cancelStatement at hnone
  split at hnone
  · repeat' split at hnone
    all_goals cases hnone
  · repeat' split at hnone
    all_goals cases hnone
  · split_ifs at hnone with hfree
    · repeat' split at hnone
      all_goals cases hnone
    · exact stopped_of_job (by simp [Txn.needs, hT]) hfree
  · exact .inl (by simp [Task.over, Task.committable, hT])

/-- What an insertion waits for. -/
theorem stopped_insert {job : NewJob} {pc : InsertPc} (hT : T.task = .insert job pc)
    (hnone : insertStatement s t T job pc = none) : Stopped s t T := by
  unfold insertStatement at hnone
  split at hnone
  · exact stopped_upsertQueue (by simp [Txn.needs, hT]) hnone
  · split at hnone <;> cases hnone
  · split at hnone
    · cases hnone
    · rename_i key hkey
      split_ifs at hnone with hfree
      · split at hnone
        · rename_i entry hfound
          split_ifs at hnone with hsettled
          obtain ⟨u, hne, hu, -⟩ := exists_holder_of_not_passes hsettled
          exact .inr (.inr ⟨.job entry.id, by simp [Txn.needs, hT, hkey, hfree, hfound], u, hne, hu⟩)
        · cases hnone
      · obtain ⟨u, hne, hu⟩ := exists_holder hfree
        exact .inr (.inr ⟨.key (job.queueName, key), by simp [Txn.needs, hT, hkey, hfree], u, hne, hu⟩)
  · split_ifs at hnone with hshareable
    exact stopped_of_not_passes (by simp [Txn.needs, hT]) hshareable
  · exact stopped_insertNew hT hnone
  · split at hnone <;> cases hnone
  · exact .inl (by simp [Task.over, Task.committable, hT])
  · exact .inl (by simp [Task.over, Task.committable, hT])

/-- An update of a queue waits for the lock of its row, or breaks the check of its limit. -/
theorem stopped_updateQueue {args : QueueArgs} {pc : QueuePc} (hT : T.task = .updateQueue args pc)
    (hnone : queueStatement s t T args pc = none) : Stopped s t T := by
  unfold queueStatement at hnone
  split at hnone
  · exact stopped_upsertQueue (by simp [Txn.needs, hT]) hnone
  · repeat' split at hnone
    all_goals cases hnone
  · split_ifs at hnone with hfree
    · split at hnone
      · cases hnone
      · rename_i row hrow
        split_ifs at hnone with hpos
        exact .inr (.inl (by simp [Txn.Refused, hT, hrow, not_lt.mp hpos]))
    · exact stopped_of_queue (by simp [Txn.needs, hT]) hfree
  · exact .inl (by simp [Task.over, Task.committable, hT])
  · exact .inl (by simp [Task.over, hT])

/-- A purge waits for the lock of a job, or for those who share it. -/
theorem stopped_purge {args : PurgeArgs} {pc : PurgePc} (hT : T.task = .purge args pc)
    (hnone : purgeStatement s t T args pc = none) : Stopped s t T := by
  unfold purgeStatement at hnone
  split at hnone
  · cases hnone
  · cases hnone
  · rename_i id status todo deleted
    split_ifs at hnone with hfree
    · split at hnone <;> cases hnone
    · by_cases hlock : Free s.jobLocks id t
      · -- The row is free, so a replay of the job that is being inserted holds the shared lock.
        have hshared : ¬ Unshared s.keyShares id t := fun hunshared => hfree ⟨hlock, hunshared⟩
        obtain ⟨u, hu, hne⟩ : ∃ u ∈ s.keyShares id, u ≠ t := by simpa [Unshared] using hshared
        exact .inr (.inr ⟨.share id, by simp [Txn.needs, hT], u, hne, hu⟩)
      · exact stopped_of_job (by simp [Txn.needs, hT]) hlock
  · cases hnone
  · split_ifs at hnone with hfree
    · split at hnone <;> cases hnone
    · exact stopped_of_job (by simp [Txn.needs, hT]) hfree
  · exact .inl (by simp [Task.over, Task.committable, hT])

/-- A transaction that does not take its next step has a reason for it. -/
theorem stopped_of_eq_none (hnone : statement s t T = none) : Stopped s t T := by
  unfold statement at hnone
  split at hnone <;> rename_i hT
  · exact stopped_claim hT hnone
  · exact stopped_call hT hnone
  · exact stopped_cancel hT hnone
  · exact stopped_insert hT hnone
  · unfold replayStatement at hnone
    split at hnone
    · repeat' split at hnone
      all_goals cases hnone
    · exact .inl (by simp [Task.over, hT])
    · exact .inl (by simp [Task.over, hT])
  · exact stopped_updateQueue hT hnone
  · exact stopped_purge hT hnone

/-! ## Who holds what -/

/-- The locks that a program may hold where it stands; only the programs that lock several rows may hold any
lock while they wait for another. -/
def Task.MayHold (l : Lock) : Task → Prop
  | .claimLoop _ _ | .insert _ _ | .purge _ _ => True
  | .call x _ pc => pc = .finished true ∧ l = .job x.job.id
  | .cancel id pc => pc = .finished .cancelled ∧ l = .job id
  | .updateQueue args _ => l = .queue args.name
  | .replay _ _ _ => False

/-- The program locks several rows one after the other. -/
def Task.locksSeveral : Task → Bool
  | .claimLoop _ _ | .insert _ _ | .purge _ _ => true
  | _ => false

/-- The step takes the lock. -/
def Effect.Takes (effect : Effect) : Lock → Prop
  | .job id => effect.jobLock = some id
  | .share source => effect.keyShare = some source
  | .queue name => effect.queueLock = some name
  | .queueShare name => effect.queueShare = some name
  | .key entry => effect.keyLock = some entry

/-- A lock table after a step. -/
theorem takeLock_eq_some {α : Type} [DecidableEq α] {locks : α → Option TxnId} {asked : Option α} {k : α}
    (h : takeLock locks t asked k = some u) : locks k = some u ∨ u = t ∧ asked = some k := by
  cases asked with
  | none => exact .inl h
  | some k' =>
    by_cases hk : k = k'
    · subst hk
      exact .inr ⟨by simpa [takeLock] using h.symm, rfl⟩
    · exact .inl (by simpa [takeLock, hk] using h)

/-- A lock is held after a step by who held it before, or by who takes it with the step. -/
theorem heldBy_of_perform (h : l.HeldBy (s.perform t T effect) u) : l.HeldBy s u ∨ u = t ∧ effect.Takes l := by
  cases l with
  | job id => exact takeLock_eq_some h
  | share source => exact (mem_keyShares_perform.mp h).imp id And.symm
  | queue name => exact takeLock_eq_some h
  | queueShare name => exact (mem_takeShare.mp h).imp id And.symm
  | key entry => exact takeLock_eq_some h

/-- A lock is held after the end of a transaction by another one. -/
theorem heldBy_of_close (h : l.HeldBy (s.close t) u) : l.HeldBy s u ∧ u ≠ t := by
  cases l with
  | job id => exact releaseLocks_eq_some.mp h
  | share source => exact mem_releaseShares.mp h
  | queue name => exact releaseLocks_eq_some.mp h
  | queueShare name => exact mem_releaseShares.mp h
  | key entry => exact releaseLocks_eq_some.mp h

/-- A call holds the lock of its job from the step that writes it. -/
theorem mayHold_call {x : Execution} {op : CallOp} {pc : CallPc} (he : callStatement s t T x op pc = some effect)
    (hl : Task.MayHold l (.call x op pc) ∨ effect.Takes l) : effect.task.MayHold l := by
  have hquiet (hpc : pc ≠ .finished true) {next : Task} (hl : Task.MayHold l (.call x op pc) ∨
      ({ task := next } : Effect).Takes l) : next.MayHold l := by
    rcases hl with ⟨hfinished, -⟩ | htakes
    · exact absurd hfinished hpc
    · cases l <;> cases htakes
  obtain ⟨pc', hpc, rfl⟩ | ⟨entry, rfl, -, -, -, rfl⟩ := callStatement_cases he
  · refine hquiet ?_ hl
    rcases hpc with ⟨rfl, -⟩ | ⟨rfl, -⟩ <;> decide
  · refine ⟨rfl, ?_⟩
    rcases hl with ⟨hfinished, -⟩ | htakes
    · cases hfinished
    · cases l <;> cases htakes
      rfl

/-- A cancel holds the lock of its job from the step that writes it. -/
theorem mayHold_cancel {id : JobId} {pc : CancelPc} (he : cancelStatement s t T id pc = some effect)
    (hl : Task.MayHold l (.cancel id pc) ∨ effect.Takes l) : effect.task.MayHold l := by
  have hquiet (hpc : pc ≠ .finished .cancelled) {next : Task} (hl : Task.MayHold l (.cancel id pc) ∨
      ({ task := next } : Effect).Takes l) : next.MayHold l := by
    rcases hl with ⟨hfinished, -⟩ | htakes
    · exact absurd hfinished hpc
    · cases l <;> cases htakes
  obtain ⟨pc', hpc, rfl⟩ | ⟨entry, rfl, -, -, -, rfl⟩ := cancelStatement_cases he
  · refine hquiet ?_ hl
    rcases hpc with ⟨rfl, -⟩ | ⟨rfl, -⟩ | ⟨rfl, -⟩ <;> decide
  · refine ⟨rfl, ?_⟩
    rcases hl with ⟨hfinished, -⟩ | htakes
    · cases hfinished
    · cases l <;> cases htakes
      rfl

/-- An update of a queue takes the lock of its row and no other. -/
theorem takes_queueStatement {args : QueueArgs} {pc : QueuePc} (he : queueStatement s t T args pc = some effect)
    (htakes : effect.Takes l) : l = .queue args.name := by
  have hquiet {next : Task} (htakes : ({ task := next } : Effect).Takes l) : l = .queue args.name := by
    cases l <;> cases htakes
  obtain ⟨-, hupsert⟩ | ⟨pc', -, rfl⟩ | ⟨row, -, -, -, -, rfl⟩ := queueStatement_cases he
  · obtain ⟨-, rfl⟩ | ⟨-, -, rfl⟩ := upsertQueue_cases hupsert
    · exact hquiet htakes
    · cases l <;> cases htakes
      rfl
  · exact hquiet htakes
  · cases l <;> cases htakes
    rfl

/-- A program that locks one row at most runs a single statement after the other. -/
theorem Steps.statement_eq (h : Steps s t T effect) (hT : T.task.locksSeveral = false) :
    statement s t T = some effect := by
  rcases h with he | he | ⟨job, he⟩
  · exact he
  · unfold scanStatement at he
    split at he
    · simp [*, Task.locksSeveral] at hT
    · cases he
  · obtain ⟨done, pc, htask, -⟩ := enqueueMore_cases he
    simp [htask, Task.locksSeveral] at hT

/-- A program may hold what a step takes, and what it could hold before. -/
theorem Steps.mayHold (h : Steps s t T effect) (hl : T.task.MayHold l ∨ effect.Takes l) :
    effect.task.MayHold l := by
  have hleads := h.leadsTo
  cases hT : T.task with
  | claimLoop args pc =>
    rw [hT] at hleads
    obtain ⟨pc', htask⟩ := hleads
    rw [htask]
    trivial
  | insert job pc =>
    rw [hT] at hleads
    rcases hleads with ⟨pc', htask⟩ | ⟨next, htask⟩ <;> rw [htask] <;> trivial
  | purge args pc =>
    rw [hT] at hleads
    obtain ⟨pc', htask⟩ := hleads
    rw [htask]
    trivial
  | call x op pc =>
    have he := h.statement_eq (by rw [hT]; rfl)
    simp only [statement, hT] at he
    exact mayHold_call he (by rwa [hT] at hl)
  | cancel id pc =>
    have he := h.statement_eq (by rw [hT]; rfl)
    simp only [statement, hT] at he
    exact mayHold_cancel he (by rwa [hT] at hl)
  | updateQueue args pc =>
    have he := h.statement_eq (by rw [hT]; rfl)
    simp only [statement, hT] at he
    rw [hT] at hleads hl
    obtain ⟨pc', htask⟩ := hleads
    rw [htask]
    exact hl.elim id fun htakes => takes_queueStatement he htakes
  | replay id force pc =>
    have he := h.statement_eq (by rw [hT]; rfl)
    simp only [statement, hT] at he
    rw [hT] at hleads hl
    have htakes := hl.resolve_left not_false
    obtain ⟨-, ⟨pc', -, rfl⟩ | ⟨source, -, rfl⟩⟩ := replayStatement_cases he
    · cases l <;> cases htakes
    · cases l <;> cases htakes

/-- In every state a held lock belongs to an open transaction that may hold it. -/
theorem Reachable.mayHold (h : Reachable s) (hheld : l.HeldBy s u) : ∃ U, s.txns u = some U ∧ U.task.MayHold l := by
  obtain ⟨clock, hrun⟩ := h
  suffices hinv : Reachable s ∧ ∀ u l, l.HeldBy s u → ∃ U, s.txns u = some U ∧ U.task.MayHold l from
    hinv.2 u l hheld
  clear hheld
  refine ReachesUnder.invariant
    (I := fun s => Reachable s ∧ ∀ u l, l.HeldBy s u → ∃ U, s.txns u = some U ∧ U.task.MayHold l) hrun
    ⟨⟨clock, .refl⟩, fun u l hheld => by cases l <;> cases hheld⟩ ?_
  rintro s a s' ⟨hreach, hholds⟩ - hs
  refine ⟨hreach.tail hs, fun u l hheld => ?_⟩
  rcases step_cases hs with ⟨elapsed, -, rfl⟩ | ⟨request, task, -, hr, rfl⟩ |
    ⟨v, V, effect, hV, he, rfl⟩ | ⟨v, V, -, hV, hcommit, rfl⟩ | ⟨v, V, -, -, rfl⟩
  · exact hholds u l (by cases l <;> exact hheld)
  · obtain ⟨U, hU, hmay⟩ := hholds u l (by cases l <;> exact hheld)
    exact ⟨U, by simpa [State.open, (hreach.inv.lt_nextTxn hU).ne] using hU, hmay⟩
  · have hsteps : Steps s v V effect := StepsBy.steps he
    by_cases huv : u = v
    · subst huv
      refine ⟨V.after effect, by simp [State.perform], hsteps.mayHold ?_⟩
      refine (heldBy_of_perform hheld).imp (fun hold => ?_) And.right
      obtain ⟨U, hU, hmay⟩ := hholds u l hold
      rwa [Option.some.inj (hV.symm.trans hU)]
    · obtain ⟨U, hU, hmay⟩ := hholds u l ((heldBy_of_perform hheld).resolve_right fun hnew => huv hnew.1)
      exact ⟨U, by simpa [State.perform, huv] using hU, hmay⟩
  · obtain ⟨hold, huv⟩ := heldBy_of_close (show l.HeldBy (s.close v) u by cases l <;> exact hheld)
    obtain ⟨U, hU, hmay⟩ := hholds u l hold
    exact ⟨U, by simpa [State.commit, State.close, huv] using hU, hmay⟩
  · obtain ⟨hold, huv⟩ := heldBy_of_close hheld
    obtain ⟨U, hU, hmay⟩ := hholds u l hold
    exact ⟨U, by simpa [State.close, huv] using hU, hmay⟩

/-! ## Waiting -/

/-- Who is waited for is open. -/
theorem Awaits.open (h : Reachable s) (hawaits : Awaits s t u) : ∃ U, s.txns u = some U := by
  obtain ⟨-, T, -, -, l, -, hheld⟩ := hawaits
  obtain ⟨U, hU, -⟩ := h.mayHold hheld
  exact ⟨U, hU⟩

/-- Who waits and is waited for locks several rows. -/
theorem Awaits.locksSeveral {v : TxnId} (h : Reachable s) (hT : s.txns t = some T) (hwaits : Awaits s t u)
    (hwaited : Awaits s v t) : T.task.locksSeveral = true := by
  obtain ⟨-, -, -, -, l, -, hheld⟩ := hwaited
  obtain ⟨T', hT', hmay⟩ := h.mayHold hheld
  obtain rfl := Option.some.inj (hT.symm.trans hT')
  obtain ⟨hne, T', hT', -, l', hneeds, hheld'⟩ := hwaits
  obtain rfl := Option.some.inj (hT.symm.trans hT')
  cases htask : T.task with
  | claimLoop args pc => rfl
  | insert job pc => rfl
  | purge args pc => rfl
  | call x op pc =>
    rw [htask] at hmay
    obtain ⟨rfl, -⟩ := hmay
    simp [Txn.needs, htask] at hneeds
  | cancel id pc =>
    rw [htask] at hmay
    obtain ⟨rfl, -⟩ := hmay
    simp [Txn.needs, htask] at hneeds
  | updateQueue args pc =>
    -- The only lock that it may hold is the one that it needs.
    rw [htask] at hmay
    obtain rfl : l = .queue args.name := hmay
    have hsame : l' = .queue args.name := by
      cases pc <;> simp [Txn.needs, htask] at hneeds <;> exact hneeds
    subst hsame
    exact absurd (Option.some.inj (hheld'.symm.trans hheld)) hne
  | replay id force pc =>
    rw [htask] at hmay
    exact hmay.elim

end PgRelay
