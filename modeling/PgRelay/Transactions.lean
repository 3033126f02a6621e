import PgRelay.Ledger
import PgRelay.RowStore.Runs
import Mathlib.Data.List.Dedup

/-!
# Transactions under READ COMMITTED

Every session of the program as a little machine that runs its statements one after the other,
with any number of sessions interleaved between any two of their steps. A statement takes its
snapshot when it starts: the committed rows together with the transaction's own writes. It then
locks the rows it found one by one. Where a row is locked by another transaction, `SKIP LOCKED`
passes it by and every other statement waits, which is an action that cannot be performed yet.
Once a row is locked its newest version is tested again. Locks last until the transaction ends,
by a commit or, at any moment, by a rollback.

The checks of foreign keys take shared locks: on the queue of an inserted job, and on the job that it replays.
They wait for, and keep waiting, who locks a row to claim from it or to delete it, but not its other updates.

A written row version stays with its transaction until the commit installs it. The log is a
history variable: it lists the committed operations and no step reads it.
-/

namespace PgRelay

open RowStore

/-- The parameters of one round of `_claim_loop`: a recovery, then a claim in the same session.
The recovery is empty with the limit 0, and `claim_jobs` is not called with the batch size 0. -/
structure ClaimArgs where
  worker : WorkerId
  queueNames : List QueueName
  batchSize : ℕ
  leaseSeconds : Int
  recoverBatchSize : ℕ

/-- A row of `active_queues`, with the candidates its subquery has not visited yet. -/
structure ActiveQueue where
  name : QueueName
  slots : ℕ
  candidates : List JobId

/-- Where a claim round stands; `recovering`, `lockingQueues` and `claiming` are inside a
statement, whose snapshot has been taken. -/
inductive ClaimPc
  | begin
  | recovering (todo : List JobId) (limit : ℕ)
  | recovered
  | lockingQueues (todo : List QueueName)
  | queuesLocked
  | claiming (snapshot : JobTable) (todo : List QueueName) (active : List ActiveQueue) (picked : List JobId)
  | finished (rows : List JobRow)

/-- The repository methods an execution calls for the job it was started with. -/
inductive CallOp
  | extendLease (leaseSeconds : Int)
  | returnToPending
  | complete (args : CompleteArgs)
  | fail (args : FailArgs)

/-- Where such a call stands; `matched` waits for the row lock. -/
inductive CallPc
  | begin
  | matched
  | finished (updated : Bool)
  deriving DecidableEq

/-- What `JobService.cancel` reports. -/
inductive CancelResult
  | cancelled
  | notFound
  | conflict
  deriving DecidableEq, Repr

/-- Where a cancel stands: before `get_job`, before the update, waiting for the row lock, done. -/
inductive CancelPc
  | begin
  | checked
  | matched
  | finished (result : CancelResult)
  deriving DecidableEq

/-- Where `insert_job` stands; `inserting` and `queueChecked` are inside its `INSERT`, which has its entry in the
unique index and waits for the checks of its foreign keys; `failed` is a raised `RepositoryError`. -/
inductive InsertPc
  | begin
  | queueUpserted
  | queueRead
  | inserting
  | queueChecked
  | conflicted
  | finished (id : JobId) (created : Bool)
  | failed
  deriving DecidableEq

/-- Where `JobService.replay` stands before it calls `insert_job`. -/
inductive ReplayPc
  | begin
  | notFound
  | conflict
  deriving DecidableEq

/-- The parameters of `update_queue`. -/
structure QueueArgs where
  name : QueueName
  paused : Option Bool
  concurrencyLimit : Option Int

/-- Where `update_queue` stands. -/
inductive QueuePc
  | begin
  | upserted
  | matched
  | finished
  | failed
  deriving DecidableEq

/-- Where `purge_jobs` stands; the cascade clears the references to the deleted jobs. -/
inductive PurgePc
  | begin
  | deleting (todo : List (JobId × JobStatus)) (deleted : List JobStatus)
  | cascading (todo : List JobId) (deleted : List JobStatus)
  | finished (deleted : List JobStatus)
  deriving DecidableEq

/-- The transactions of the program. -/
inductive Task
  | claimLoop (args : ClaimArgs) (pc : ClaimPc)
  | call (x : Execution) (op : CallOp) (pc : CallPc)
  | cancel (id : JobId) (pc : CancelPc)
  | insert (job : NewJob) (pc : InsertPc)
  | replay (id : JobId) (force : Bool) (pc : ReplayPc)
  | updateQueue (args : QueueArgs) (pc : QueuePc)
  | purge (args : PurgeArgs) (pc : PurgePc)

/-- An open transaction: its `now()`, its program and the row versions it has written. -/
structure Txn where
  now : Timestamp
  task : Task
  changes : List (Change LogEntry JobEntry)
  queueWrites : List QueueRow

/-- The committed tables, the executions the workers have started, the open transactions and
the locks they hold: on job rows, on queue rows, on entries of the unique index over
`(queue_name, idempotency_key)`, and the shared ones of foreign-key checks on job rows and queue rows. -/
structure State where
  clock : Timestamp
  queues : QueueTable
  jobs : JobTable
  executions : List Execution
  txns : TxnId → Option Txn
  jobLocks : JobId → Option TxnId
  queueLocks : QueueName → Option TxnId
  keyLocks : QueueName × String → Option TxnId
  keyShares : JobId → List TxnId
  queueShares : QueueName → List TxnId
  nextTxn : TxnId
  nextJob : JobId
  log : List LogEntry

/-- The migrated schema before its first use. -/
def State.init (clock : Timestamp) : State where
  clock := clock
  queues := Table.empty
  jobs := Table.empty
  executions := []
  txns _ := none
  jobLocks _ := none
  queueLocks _ := none
  keyLocks _ := none
  keyShares _ := []
  queueShares _ := []
  nextTxn := 0
  nextJob := 0
  log := []

/-- The jobs a statement of the transaction would see if it started now. -/
def Txn.view (T : Txn) (s : State) : JobTable := jobDynamics.applyChanges s.jobs T.changes

/-- The queues a statement of the transaction would see if it started now. -/
def Txn.queueView (T : Txn) (s : State) : QueueTable := T.queueWrites.foldl Table.put s.queues

/-- No other transaction holds the lock. -/
def Free {α : Type} (locks : α → Option TxnId) (k : α) (t : TxnId) : Prop :=
  locks k = none ∨ locks k = some t

instance {α : Type} (locks : α → Option TxnId) (k : α) (t : TxnId) : Decidable (Free locks k t) :=
  inferInstanceAs (Decidable (_ ∨ _))

/-- No other transaction shares the lock. -/
def Unshared {α : Type} (shares : α → List TxnId) (k : α) (t : TxnId) : Prop := ∀ holder ∈ shares k, holder = t

instance {α : Type} (shares : α → List TxnId) (k : α) (t : TxnId) : Decidable (Unshared shares k t) :=
  inferInstanceAs (Decidable (∀ _ ∈ _, _))

/-- No other transaction holds the lock, or the one that holds it passes the test. -/
def State.passes {α : Type} (s : State) (locks : α → Option TxnId) (k : α) (t : TxnId) (test : Txn → Bool) : Bool :=
  match locks k with
  | none => true
  | some holder => holder = t ||
      match s.txns holder with
      | none => true
      | some H => test H

/-- What one step of a statement does besides moving its transaction on: locks taken, versions
written, ids drawn. -/
structure Effect where
  task : Task
  jobLock : Option JobId := none
  queueLock : Option QueueName := none
  keyLock : Option (QueueName × String) := none
  keyShare : Option JobId := none
  queueShare : Option QueueName := none
  changes : List (Change LogEntry JobEntry) := []
  queueWrites : List QueueRow := []
  newJobs : ℕ := 0

/-! ## Claim rounds -/

/-- `SELECT count(*) … WHERE status = 'leased' GROUP BY queue_name`, for one queue. -/
def leasedCount (jobs : JobTable) (q : QueueName) : ℕ :=
  jobs.count fun entry => decide (entry.row.status = .leased ∧ entry.row.queueName = q)

/-- `SELECT q.name … WHERE q.paused = false AND q.name = ANY(:queue_names) ORDER BY q.name`. -/
def unpausedQueues (names : List QueueName) (queues : QueueTable) : List QueueName :=
  ((queues.rows.filter fun q => !q.paused && decide (q.name ∈ names)).map QueueRow.name).insertionSort
    (· ≤ ·)

/-- The rows the recovery finds in its snapshot, `ORDER BY locked_until ASC`. -/
def recoverCandidates (now : Timestamp) (jobs : JobTable) : List JobId :=
  ((jobs.rows.filter fun entry => decide (LeaseExpired now entry.row)).insertionSort
    fun a b => a.row.lockedUntil.getD 0 ≤ b.row.lockedUntil.getD 0).map JobEntry.id

/-- The rows the candidate subquery of one queue finds in the snapshot, in its order. -/
def claimCandidates (now : Timestamp) (jobs : JobTable) (q : QueueName) : List JobId :=
  ((jobs.rows.filter fun entry => decide (entry.row.queueName = q ∧ Claimable now entry.row)).insertionSort
    fun a b => ClaimsBefore a.row b.row).map JobEntry.id

/-- The row of `active_queues` of a locked queue: the limit is that of the locked row, the leased
jobs are counted in the snapshot. -/
def activateQueue (now : Timestamp) (snapshot : JobTable) (q : QueueRow) : ActiveQueue where
  name := q.name
  slots := (q.concurrencyLimit - leasedCount snapshot q.name).toNat
  candidates := claimCandidates now snapshot q.name

/-- The write of the claim update on one picked row. -/
def claimChange (t : TxnId) (now : Timestamp) (args : ClaimArgs) (entry : JobEntry) :
    Change LogEntry JobEntry :=
  let row := claimUpdate now args.worker args.leaseSeconds entry.row
  ⟨⟨t, now, .claimed ⟨t, args.worker, row⟩ args.leaseSeconds⟩, some { entry with row := row }⟩

/-- The ids that `picked` keeps under its own `ORDER BY … LIMIT :batch_size`; the update joins
each of them once. -/
def claimedIds (jobs : JobTable) (picked : List JobId) (batchSize : ℕ) : List JobId :=
  ((((picked.filterMap jobs.get).insertionSort fun a b => ClaimsBefore a.row b.row).take
    batchSize).map JobEntry.id).dedup

/-- One step of the candidate subqueries: visit the next candidate of the first active queue. -/
def claimScan (s : State) (t : TxnId) (T : Txn) (args : ClaimArgs) (snapshot : JobTable)
    (todo : List QueueName) (picked : List JobId) : List ActiveQueue → Option Effect
  | [] => none
  | ⟨_, 0, _⟩ :: active => some { task := .claimLoop args (.claiming snapshot todo active picked) }
  | ⟨_, _ + 1, []⟩ :: active => some { task := .claimLoop args (.claiming snapshot todo active picked) }
  | ⟨q, slots + 1, id :: rest⟩ :: active =>
    let skip : Effect :=
      { task := .claimLoop args (.claiming snapshot todo (⟨q, slots + 1, rest⟩ :: active) picked) }
    if Free s.jobLocks id t then
      match (T.view s).get id with
      | none => some skip
      | some entry =>
        if entry.row.queueName = q ∧ Claimable T.now entry.row then
          some { task := .claimLoop args (.claiming snapshot todo (⟨q, slots, rest⟩ :: active) (picked ++ [id]))
                 jobLock := some id }
        else some skip
    else some skip

/-- One step of a claim round. -/
def claimStatement (s : State) (t : TxnId) (T : Txn) (args : ClaimArgs) : ClaimPc → Option Effect
  | .begin =>
    let todo := recoverCandidates T.now (T.view s)
    some { task := .claimLoop args (.recovering todo args.recoverBatchSize) }
  | .recovering [] _ => some { task := .claimLoop args .recovered }
  | .recovering (_ :: _) 0 => some { task := .claimLoop args .recovered }
  | .recovering (id :: todo) (limit + 1) =>
    let skip : Effect := { task := .claimLoop args (.recovering todo (limit + 1)) }
    if Free s.jobLocks id t then
      match (T.view s).get id with
      | none => some skip
      | some entry =>
        if LeaseExpired T.now entry.row then
          some { task := .claimLoop args (.recovering todo limit)
                 jobLock := some id
                 changes := [⟨⟨t, T.now, .recovered id⟩, some (recoverExpiredLease T.now entry)⟩] }
        else some skip
    else some skip
  | .recovered =>
    if args.batchSize = 0 then none
    else some { task := .claimLoop args (.lockingQueues (unpausedQueues args.queueNames (T.queueView s))) }
  | .lockingQueues [] => some { task := .claimLoop args .queuesLocked }
  | .lockingQueues (q :: todo) =>
    if Free s.queueLocks q t ∧ Unshared s.queueShares q t then
      some { task := .claimLoop args (.lockingQueues todo), queueLock := some q }
    else none
  | .queuesLocked =>
    let todo := unpausedQueues args.queueNames (T.queueView s)
    some { task := .claimLoop args (.claiming (T.view s) todo [] []) }
  | .claiming snapshot (q :: todo) active picked =>
    if Free s.queueLocks q t ∧ Unshared s.queueShares q t then
      match (T.queueView s).get q with
      | none => some { task := .claimLoop args (.claiming snapshot todo active picked) }
      | some row =>
        if row.paused then
          some { task := .claimLoop args (.claiming snapshot todo active picked), queueLock := some q }
        else
          let active := active ++ [activateQueue T.now snapshot row]
          some { task := .claimLoop args (.claiming snapshot todo active picked), queueLock := some q }
    else none
  | .claiming _ [] [] picked =>
    let entries := (claimedIds (T.view s) picked args.batchSize).filterMap (T.view s).get
    let rows := entries.map fun entry => claimUpdate T.now args.worker args.leaseSeconds entry.row
    some { task := .claimLoop args (.finished rows), changes := entries.map (claimChange t T.now args) }
  | .claiming snapshot [] (a :: active) picked => claimScan s t T args snapshot [] picked (a :: active)
  | .finished _ => none

/-! ## Calls of executions -/

/-- The write of a call on a row that passed the ownership test. -/
def callChange (t : TxnId) (now : Timestamp) (x : Execution) (entry : JobEntry) :
    CallOp → Change LogEntry JobEntry
  | .extendLease leaseSeconds => ⟨⟨t, now, .extended x leaseSeconds⟩,
      some { entry with row := PgRelay.extendLease now leaseSeconds entry.row }⟩
  | .returnToPending => ⟨⟨t, now, .returned x⟩,
      some { entry with row := PgRelay.returnToPending now entry.row }⟩
  | .complete args => ⟨⟨t, now, .completed x args⟩, some (completeJob now x.job x.worker args entry)⟩
  | .fail args => ⟨⟨t, now, .failed x args⟩, some (failJob now x.job x.worker args entry)⟩

/-- One step of `extend_lease`, `return_leased_job_to_pending`, `complete_job` or `fail_job`. -/
def callStatement (s : State) (t : TxnId) (T : Txn) (x : Execution) (op : CallOp) :
    CallPc → Option Effect
  | .begin =>
    match (T.view s).get x.job.id with
    | none => some { task := .call x op (.finished false) }
    | some entry =>
      if OwnedBy x.worker entry.row then some { task := .call x op .matched }
      else some { task := .call x op (.finished false) }
  | .matched =>
    if Free s.jobLocks x.job.id t then
      match (T.view s).get x.job.id with
      | none => some { task := .call x op (.finished false) }
      | some entry =>
        if OwnedBy x.worker entry.row then
          some { task := .call x op (.finished true)
                 jobLock := some x.job.id
                 changes := [callChange t T.now x entry op] }
        else some { task := .call x op (.finished false) }
    else none
  | .finished _ => none

/-! ## Cancel -/

/-- One step of `JobService.cancel`. -/
def cancelStatement (s : State) (t : TxnId) (T : Txn) (id : JobId) : CancelPc → Option Effect
  | .begin =>
    match (T.view s).get id with
    | none => some { task := .cancel id (.finished .notFound) }
    | some entry =>
      if entry.row.status = .pending then some { task := .cancel id .checked }
      else some { task := .cancel id (.finished .conflict) }
  | .checked =>
    match (T.view s).get id with
    | none => some { task := .cancel id (.finished .conflict) }
    | some entry =>
      if entry.row.status = .pending then some { task := .cancel id .matched }
      else some { task := .cancel id (.finished .conflict) }
  | .matched =>
    if Free s.jobLocks id t then
      match (T.view s).get id with
      | none => some { task := .cancel id (.finished .conflict) }
      | some entry =>
        if entry.row.status = .pending then
          some { task := .cancel id (.finished .cancelled)
                 jobLock := some id
                 changes := [⟨⟨t, T.now, .cancelled id⟩,
                   some { entry with row := cancelUpdate T.now entry.row }⟩] }
        else some { task := .cancel id (.finished .conflict) }
    else none
  | .finished _ => none

/-! ## Enqueue and replay -/

/-- The row `INSERT INTO pgrelay_queue (name)` creates, with the column defaults. -/
def newQueue (now : Timestamp) (name : QueueName) : QueueRow where
  name := name
  paused := false
  concurrencyLimit := 8
  createdAt := now
  updatedAt := now

/-- No other transaction has an uncommitted version of the queue, which a conflicting insert waits for. -/
def queueSettled (s : State) (t : TxnId) (name : QueueName) : Bool :=
  s.passes s.queueLocks name t fun H => H.queueWrites.all fun row => row.name ≠ name

/-- `INSERT … ON CONFLICT (name) DO NOTHING`: an uncommitted insert or update of the name is waited for. -/
def upsertQueue (s : State) (t : TxnId) (T : Txn) (name : QueueName) (next : Task) : Option Effect :=
  match (T.queueView s).get name with
  | some _ => if queueSettled s t name = true then some { task := next } else none
  | none =>
    if Free s.queueLocks name t then
      some { task := next, queueLock := some name, queueWrites := [newQueue T.now name] }
    else none

/-- The visible job with a queue and an idempotency key. -/
def findByKey (jobs : JobTable) (q : QueueName) (key : String) : Option JobEntry :=
  jobs.rows.find? fun entry => decide (entry.row.queueName = q ∧ entry.row.idempotencyKey = some key)

/-- No other transaction has an uncommitted version of the job, which a conflicting insert waits for. -/
def jobSettled (s : State) (t : TxnId) (id : JobId) : Bool :=
  s.passes s.jobLocks id t fun H => H.changes.all fun c => c.event.event.jobId ≠ id

/-- The transaction locks queues `FOR UPDATE`, and not by an update of a row alone. -/
def Task.claims : Task → Bool
  | .claimLoop _ _ => true
  | _ => false

/-- The foreign-key check on the queue: nobody is claiming from it. -/
def queueShareable (s : State) (t : TxnId) (name : QueueName) : Bool :=
  s.passes s.queueLocks name t fun H => !H.task.claims

/-- The foreign-key check on the replayed job: it is there and nobody is deleting it. -/
def sourceAlive (s : State) (t : TxnId) (T : Txn) : Option JobId → Bool
  | none => true
  | some source => ((T.view s).get source).isSome &&
      s.passes s.jobLocks source t fun H => ((H.view s).get source).isSome

/-- The end of the insertion, under the constraints of the table: the row version is written with the last check
that it has to pass, since nobody else sees it before the commit. -/
def insertNew (s : State) (t : TxnId) (T : Txn) (job : NewJob) : Option Effect :=
  if 0 < job.maxAttempts ∧ sourceAlive s t T job.replayedFromJobId = true then
    some { task := .insert job (.finished s.nextJob true)
           jobLock := some s.nextJob
           keyShare := job.replayedFromJobId
           changes := [⟨⟨t, T.now, .inserted s.nextJob job⟩, some ⟨insertJob s.nextJob T.now job, []⟩⟩]
           newJobs := 1 }
  else none

/-- One step of `insert_job`. -/
def insertStatement (s : State) (t : TxnId) (T : Txn) (job : NewJob) : InsertPc → Option Effect
  | .begin => upsertQueue s t T job.queueName (.insert job .queueUpserted)
  | .queueUpserted =>
    match (T.queueView s).get job.queueName with
    | none => some { task := .insert job .failed }
    | some _ => some { task := .insert job .queueRead }
  | .queueRead =>
    match job.idempotencyKey with
    | none => some { task := .insert job .inserting }
    | some key =>
      if Free s.keyLocks (job.queueName, key) t then
        match findByKey (T.view s) job.queueName key with
        | some entry => if jobSettled s t entry.id = true then some { task := .insert job .conflicted } else none
        | none => some { task := .insert job .inserting, keyLock := some (job.queueName, key) }
      else none
  | .inserting =>
    if queueShareable s t job.queueName = true then
      some { task := .insert job .queueChecked, queueShare := some job.queueName }
    else none
  | .queueChecked => insertNew s t T job
  | .conflicted =>
    match job.idempotencyKey.bind (findByKey (T.view s) job.queueName) with
    | none => some { task := .insert job .failed }
    | some entry => some { task := .insert job (.finished entry.id false) }
  | .finished _ _ | .failed => none

/-- `f"replay:{job_id}"`. -/
def replayKey (id : JobId) : String := "replay:" ++ toString id

/-- The first step of `JobService.replay`: `get_job` and the test of its status. -/
def replayStatement (s : State) (T : Txn) (id : JobId) (force : Bool) : ReplayPc → Option Effect
  | .begin =>
    match (T.view s).get id with
    | none => some { task := .replay id force .notFound }
    | some source =>
      if source.row.status = .deadLetter ∨ source.row.status = .cancelled ∨
          source.row.status = .succeeded ∧ force = true then
        some { task := .insert (replayJob source.row (replayKey id)) .begin }
      else some { task := .replay id force .conflict }
  | .notFound | .conflict => none

/-! ## Queue administration -/

/-- One step of `update_queue`; an update that breaks the limit's check constraint fails. -/
def queueStatement (s : State) (t : TxnId) (T : Txn) (args : QueueArgs) : QueuePc → Option Effect
  | .begin => upsertQueue s t T args.name (.updateQueue args .upserted)
  | .upserted =>
    match (T.queueView s).get args.name with
    | none => some { task := .updateQueue args .failed }
    | some _ =>
      if args.paused = none ∧ args.concurrencyLimit = none then some { task := .updateQueue args .finished }
      else some { task := .updateQueue args .matched }
  | .matched =>
    if Free s.queueLocks args.name t then
      match (T.queueView s).get args.name with
      | none => some { task := .updateQueue args .failed }
      | some row =>
        if 0 < args.concurrencyLimit.getD row.concurrencyLimit then
          some { task := .updateQueue args .finished
                 queueLock := some args.name
                 queueWrites := [{ row with
                   paused := args.paused.getD row.paused
                   concurrencyLimit := args.concurrencyLimit.getD row.concurrencyLimit
                   updatedAt := T.now }] }
        else none
    else none
  | .finished | .failed => none

/-! ## Purge -/

/-- The rows `picked` finds in the snapshot of the purge, with the status read there. -/
def purgeCandidates (now : Timestamp) (args : PurgeArgs) (jobs : JobTable) :
    List (JobId × JobStatus) :=
  (((jobs.rows.filter fun entry => decide (Purgeable now args entry.row)).insertionSort
    fun a b => a.row.completedAt.getD 0 ≤ b.row.completedAt.getD 0).take args.batchSize).map
      fun entry => (entry.id, entry.row.status)

/-- The jobs whose reference to a deleted job has to be cleared. -/
def danglingReplays (T : Txn) (s : State) : List JobId :=
  ((T.view s).rows.filter fun entry =>
    entry.row.replayedFromJobId.any fun source => T.changes.any fun c => c.event.event.jobId = source).map
      JobEntry.id

/-- One step of `purge_jobs`: the delete waits for a locked row and tests nothing but the id. -/
def purgeStatement (s : State) (t : TxnId) (T : Txn) (args : PurgeArgs) : PurgePc → Option Effect
  | .begin => some { task := .purge args (.deleting (purgeCandidates T.now args (T.view s)) []) }
  | .deleting [] deleted => some { task := .purge args (.cascading (danglingReplays T s) deleted) }
  | .deleting ((id, status) :: todo) deleted =>
    if Free s.jobLocks id t ∧ Unshared s.keyShares id t then
      match (T.view s).get id with
      | none => some { task := .purge args (.deleting todo deleted) }
      | some entry =>
        some { task := .purge args (.deleting todo (deleted ++ [status]))
               jobLock := some id
               keyLock := entry.row.idempotencyKey.map fun key => (entry.row.queueName, key)
               changes := [⟨⟨t, T.now, .deleted id args⟩, none⟩] }
    else none
  | .cascading [] deleted => some { task := .purge args (.finished deleted) }
  | .cascading (id :: todo) deleted =>
    if Free s.jobLocks id t then
      match (T.view s).get id with
      | none => some { task := .purge args (.cascading todo deleted) }
      | some entry =>
        some { task := .purge args (.cascading todo deleted)
               jobLock := some id
               changes := [⟨⟨t, T.now, .unlinked id⟩,
                 some { entry with row := unlinkReplay entry.row }⟩] }
    else none
  | .finished _ => none

/-! ## The system -/

/-- The next step of an open transaction, if it need not wait. -/
def statement (s : State) (t : TxnId) (T : Txn) : Option Effect :=
  match T.task with
  | .claimLoop args pc => claimStatement s t T args pc
  | .call x op pc => callStatement s t T x op pc
  | .cancel id pc => cancelStatement s t T id pc
  | .insert job pc => insertStatement s t T job pc
  | .replay id force pc => replayStatement s T id force pc
  | .updateQueue args pc => queueStatement s t T args pc
  | .purge args pc => purgeStatement s t T args pc

/-- A claim may visit candidates of the queues it has locked before it locks the next queue. -/
def scanStatement (s : State) (t : TxnId) (T : Txn) : Option Effect :=
  match T.task with
  | .claimLoop args (.claiming snapshot todo active picked) =>
    claimScan s t T args snapshot todo picked active
  | _ => none

/-- Take a lock, if one is asked for. -/
def takeLock {α : Type} [DecidableEq α] (locks : α → Option TxnId) (t : TxnId) :
    Option α → α → Option TxnId
  | none => locks
  | some k => Function.update locks k (some t)

/-- Give back the locks of a transaction that ends. -/
def releaseLocks {α : Type} (locks : α → Option TxnId) (t : TxnId) (k : α) : Option TxnId :=
  if locks k = some t then none else locks k

/-- Take a shared lock, if one is asked for. -/
def takeShare {α : Type} [DecidableEq α] (shares : α → List TxnId) (t : TxnId) : Option α → α → List TxnId
  | none => shares
  | some k => Function.update shares k (t :: shares k)

/-- Give back the shared locks of a transaction that ends. -/
def releaseShares {α : Type} (shares : α → List TxnId) (t : TxnId) (k : α) : List TxnId :=
  (shares k).filter fun holder => holder ≠ t

/-- The transaction after one step of a statement. -/
def Txn.after (T : Txn) (effect : Effect) : Txn :=
  { T with
    task := effect.task
    changes := T.changes ++ effect.changes
    queueWrites := T.queueWrites ++ effect.queueWrites }

/-- Perform one step of a statement. -/
def State.perform (s : State) (t : TxnId) (T : Txn) (effect : Effect) : State :=
  { s with
    txns := Function.update s.txns t (some (T.after effect))
    jobLocks := takeLock s.jobLocks t effect.jobLock
    queueLocks := takeLock s.queueLocks t effect.queueLock
    keyLocks := takeLock s.keyLocks t effect.keyLock
    keyShares := takeShare s.keyShares t effect.keyShare
    queueShares := takeShare s.queueShares t effect.queueShare
    nextJob := s.nextJob + effect.newJobs }

/-- End a transaction: forget it and its locks. -/
def State.close (s : State) (t : TxnId) : State :=
  { s with
    txns := Function.update s.txns t none
    jobLocks := releaseLocks s.jobLocks t
    queueLocks := releaseLocks s.queueLocks t
    keyLocks := releaseLocks s.keyLocks t
    keyShares := releaseShares s.keyShares t
    queueShares := releaseShares s.queueShares t }

/-- The program of the session has come to its commit. -/
def Task.committable : Task → Bool
  | .claimLoop args .recovered => args.batchSize = 0
  | .claimLoop _ (.finished _) | .call _ _ (.finished _) | .cancel _ (.finished _) => true
  | .insert _ (.finished _ _) | .insert _ .failed => true
  | .updateQueue _ .finished | .purge _ (.finished _) => true
  | _ => false

/-- The executions a worker starts after the commit of its claim. -/
def Task.started (t : TxnId) : Task → List Execution
  | .claimLoop args (.finished rows) => rows.map fun row => ⟨t, args.worker, row⟩
  | _ => []

/-- Install what the transaction has written and end it. -/
def State.commit (s : State) (t : TxnId) (T : Txn) : State :=
  { s.close t with
    queues := T.queueView s
    jobs := T.view s
    executions := s.executions ++ T.task.started t
    log := s.log ++ T.changes.map Change.event }

/-- The transactions that can be begun; a call names one of the started executions. -/
inductive Request
  | claimLoop (args : ClaimArgs)
  | call (execution : ℕ) (op : CallOp)
  | cancel (id : JobId)
  | enqueue (job : NewJob)
  | replay (id : JobId) (force : Bool)
  | updateQueue (args : QueueArgs)
  | purge (args : PurgeArgs)

/-- The program of a begun transaction. Only a replay refers to another job. -/
def Request.task (s : State) : Request → Option Task
  | .claimLoop args => some (.claimLoop args .begin)
  | .call i op => s.executions[i]?.map fun x => .call x op .begin
  | .cancel id => some (.cancel id .begin)
  | .enqueue job => if job.replayedFromJobId = none then some (.insert job .begin) else none
  | .replay id force => some (.replay id force .begin)
  | .updateQueue args => some (.updateQueue args .begin)
  | .purge args => some (.purge args .begin)

/-- Begin a transaction; its `now()` is the time of its begin. -/
def State.open (s : State) (task : Task) : State :=
  { s with
    txns := Function.update s.txns s.nextTxn (some ⟨s.clock, task, [], []⟩)
    nextTxn := s.nextTxn + 1 }

/-- The actions of the system. A caller's transaction may enqueue several jobs. -/
inductive Action
  | tick (elapsed : ℕ)
  | begin (request : Request)
  | advance (t : TxnId)
  | scan (t : TxnId)
  | enqueueMore (t : TxnId) (job : NewJob)
  | commit (t : TxnId)
  | rollback (t : TxnId)

/-- Move on to the next enqueue of the same session. -/
def enqueueMore (T : Txn) (job : NewJob) : Option Effect :=
  match T.task with
  | .insert done (.finished _ _) | .insert done .failed =>
    if done.replayedFromJobId = none ∧ job.replayedFromJobId = none then some { task := .insert job .begin }
    else none
  | _ => none

/-- Perform an action, or refuse it while it has to wait or makes no sense. -/
def step (s : State) : Action → Option State
  | .tick elapsed => some { s with clock := s.clock + elapsed }
  | .begin request => (request.task s).map s.open
  | .advance t => (s.txns t).bind fun T => (statement s t T).map (s.perform t T)
  | .scan t => (s.txns t).bind fun T => (scanStatement s t T).map (s.perform t T)
  | .enqueueMore t job => (s.txns t).bind fun T => (enqueueMore T job).map (s.perform t T)
  | .commit t => (s.txns t).bind fun T => if T.task.committable then some (s.commit t T) else none
  | .rollback t => (s.txns t).bind fun _ => some (s.close t)

/-- The states of the system: reached from the migrated schema by any actions in any order. -/
def Reachable (s : State) : Prop := ∃ clock, Reaches step (State.init clock) s

end PgRelay
