import PgRelay.Schema
import Mathlib.Data.List.Sort

/-!
# The job statements, row by row

What each statement of `repositories/job_sql.py` tests in its `WHERE` clause and what its `SET`
clause makes of one row; `now` is the transaction's `now()`. `_insert_attempt` runs in the same
transaction as the update that precedes it and under the row lock that update took, so the
methods `complete_job` and `fail_job` appear here as one function on the job and its attempt rows.
-/

namespace PgRelay

/-- The parameters of `insert_job`. -/
structure NewJob where
  queueName : QueueName
  kind : JobKind
  name : String
  payload : Json
  headers : Json
  metadata : Json
  priority : Int
  maxAttempts : Int
  timeoutSeconds : Int
  availableAt : Option Timestamp
  idempotencyKey : Option String
  dedupeKey : Option String
  traceId : Option String
  replayedFromJobId : Option JobId

/-- The row `insert_job_statement` creates, with the column defaults of the migration. -/
def insertJob (id : JobId) (now : Timestamp) (job : NewJob) : JobRow where
  id := id
  queueName := job.queueName
  kind := job.kind
  name := job.name
  payload := job.payload
  headers := job.headers
  metadata := job.metadata
  status := .pending
  priority := job.priority
  maxAttempts := job.maxAttempts
  attemptCount := 0
  availableAt := job.availableAt.getD now
  timeoutSeconds := job.timeoutSeconds
  idempotencyKey := job.idempotencyKey
  dedupeKey := job.dedupeKey
  replayedFromJobId := job.replayedFromJobId
  lockedBy := none
  lockedUntil := none
  lastErrorType := none
  lastErrorMessage := none
  lastResponseStatus := none
  traceId := job.traceId
  createdAt := now
  updatedAt := now
  completedAt := none

/-- The parameters `replay_job` passes to `insert_job`. -/
def replayJob (source : JobRow) (idempotencyKey : String) : NewJob where
  queueName := source.queueName
  kind := source.kind
  name := source.name
  payload := source.payload
  headers := source.headers
  metadata := source.metadata
  priority := source.priority
  maxAttempts := source.maxAttempts
  timeoutSeconds := source.timeoutSeconds
  availableAt := none
  idempotencyKey := some idempotencyKey
  dedupeKey := source.dedupeKey
  traceId := source.traceId
  replayedFromJobId := some source.id

/-- The filter of the candidate subquery of `claim_jobs_statement`, apart from the queue. -/
def Claimable (now : Timestamp) (j : JobRow) : Prop :=
  j.status = .pending ∧ j.availableAt ≤ now ∧ j.attemptCount < j.maxAttempts

instance (now : Timestamp) (j : JobRow) : Decidable (Claimable now j) :=
  inferInstanceAs (Decidable (_ ∧ _))

/-- `ORDER BY priority DESC, available_at ASC, created_at ASC`. -/
def ClaimsBefore (a b : JobRow) : Prop :=
  b.priority < a.priority ∨ b.priority = a.priority ∧
    (a.availableAt < b.availableAt ∨ a.availableAt = b.availableAt ∧ a.createdAt ≤ b.createdAt)

instance (a b : JobRow) : Decidable (ClaimsBefore a b) := inferInstanceAs (Decidable (_ ∨ _))

/-- The update of `claim_jobs_statement`. -/
def claimUpdate (now : Timestamp) (worker : WorkerId) (leaseSeconds : Int) (j : JobRow) : JobRow :=
  { j with
    status := .leased
    lockedBy := some worker
    lockedUntil := some (now + seconds leaseSeconds)
    attemptCount := j.attemptCount + 1
    updatedAt := now }

/-- `WHERE locked_by = :worker_id AND status = 'leased'`, the ownership test of every result. -/
def OwnedBy (worker : WorkerId) (j : JobRow) : Prop :=
  j.lockedBy = some worker ∧ j.status = .leased

instance (worker : WorkerId) (j : JobRow) : Decidable (OwnedBy worker j) :=
  inferInstanceAs (Decidable (_ ∧ _))

/-- `EXTEND_LEASE_SQL`. -/
def extendLease (now : Timestamp) (leaseSeconds : Int) (j : JobRow) : JobRow :=
  { j with lockedUntil := some (now + seconds leaseSeconds), updatedAt := now }

/-- `RETURN_TO_PENDING_SQL`. -/
def returnToPending (now : Timestamp) (j : JobRow) : JobRow :=
  { j with
    status := .pending
    attemptCount := max (j.attemptCount - 1) 0
    lockedBy := none
    lockedUntil := none
    updatedAt := now }

/-- `INSERT_ATTEMPT_SQL` with the parameters of `_insert_attempt`; the number is that of the
`JobRow` the execution was started with. -/
def insertAttempt (now : Timestamp) (job : JobRow) (worker : WorkerId) (status : AttemptStatus)
    (durationMs : Int) (errorType errorMessage : Option String) (responseStatus : Option Int)
    (responseBodyPreview : Option String) : AttemptRow where
  attemptNumber := job.attemptCount
  workerId := worker
  status := status
  startedAt := now - milliseconds durationMs
  finishedAt := now
  durationMs := durationMs
  errorType := errorType
  errorMessage := errorMessage
  responseStatus := responseStatus
  responseBodyPreview := responseBodyPreview

/-- The parameters of `complete_job` besides the job and the worker. -/
structure CompleteArgs where
  durationMs : Int
  responseStatus : Option Int
  responseBodyPreview : Option String

/-- `COMPLETE_JOB_SQL`. -/
def completeUpdate (now : Timestamp) (args : CompleteArgs) (j : JobRow) : JobRow :=
  { j with
    status := .succeeded
    lockedBy := none
    lockedUntil := none
    lastResponseStatus := args.responseStatus
    completedAt := some now
    updatedAt := now }

/-- `complete_job` on a row that passed the ownership test. -/
def completeJob (now : Timestamp) (job : JobRow) (worker : WorkerId) (args : CompleteArgs)
    (entry : JobEntry) : JobEntry where
  row := completeUpdate now args entry.row
  attempts := entry.attempts ++ [insertAttempt now job worker .succeeded args.durationMs none none
    args.responseStatus args.responseBodyPreview]

/-- The parameters of `fail_job` besides the job and the worker. -/
structure FailArgs where
  retryable : Bool
  timedOut : Bool
  retryDelaySeconds : Int
  durationMs : Int
  errorType : Option String
  errorMessage : Option String
  responseStatus : Option Int
  responseBodyPreview : Option String

/-- The retry decision of `fail_job`, taken on the `JobRow` the execution was started with. -/
def shouldRetry (job : JobRow) (args : FailArgs) : Bool :=
  args.retryable && decide (job.attemptCount < job.maxAttempts)

/-- `FAIL_JOB_SQL`. -/
def failUpdate (now : Timestamp) (retry : Bool) (args : FailArgs) (j : JobRow) : JobRow :=
  { j with
    status := if retry then .pending else .deadLetter
    availableAt := if retry then now + seconds args.retryDelaySeconds else j.availableAt
    lockedBy := none
    lockedUntil := none
    lastErrorType := args.errorType
    lastErrorMessage := args.errorMessage
    lastResponseStatus := args.responseStatus
    completedAt := if retry then j.completedAt else some now
    updatedAt := now }

/-- `fail_job` on a row that passed the ownership test. -/
def failJob (now : Timestamp) (job : JobRow) (worker : WorkerId) (args : FailArgs)
    (entry : JobEntry) : JobEntry where
  row := failUpdate now (shouldRetry job args) args entry.row
  attempts := entry.attempts ++ [insertAttempt now job worker (if args.timedOut then .timeout else .failed)
    args.durationMs args.errorType args.errorMessage args.responseStatus args.responseBodyPreview]

/-- `WHERE status = 'leased' AND locked_until < now()`; a null deadline compares to null. -/
def LeaseExpired (now : Timestamp) (j : JobRow) : Prop :=
  j.status = .leased ∧ (j.lockedUntil.any fun deadline => deadline < now) = true

instance (now : Timestamp) (j : JobRow) : Decidable (LeaseExpired now j) :=
  inferInstanceAs (Decidable (_ ∧ _))

/-- The update of `RECOVER_EXPIRED_LEASES_SQL`. -/
def recoverUpdate (now : Timestamp) (j : JobRow) : JobRow :=
  { j with
    status := if j.maxAttempts ≤ j.attemptCount then .deadLetter else .pending
    lockedBy := none
    lockedUntil := none
    lastErrorType := some "lease_expired"
    lastErrorMessage := some "Worker lease expired before completion"
    completedAt := if j.maxAttempts ≤ j.attemptCount then some now else j.completedAt
    updatedAt := now }

/-- `RECOVER_EXPIRED_LEASES_SQL` on one picked row, with the attempt row it inserts. -/
def recoverExpiredLease (now : Timestamp) (entry : JobEntry) : JobEntry where
  row := recoverUpdate now entry.row
  attempts := entry.attempts ++ [{
    attemptNumber := entry.row.attemptCount
    workerId := entry.row.lockedBy.getD "unknown"
    status := .leaseExpired
    startedAt := entry.row.lockedUntil.getD now
    finishedAt := now
    durationMs := 0
    errorType := some "lease_expired"
    errorMessage := some "Worker lease expired before completion"
    responseStatus := none
    responseBodyPreview := none }]

/-- `CANCEL_PENDING_JOB_SQL`. -/
def cancelUpdate (now : Timestamp) (j : JobRow) : JobRow :=
  { j with status := .cancelled, completedAt := some now, updatedAt := now }

/-- `ON DELETE SET NULL` on the reference to the replayed job. -/
def unlinkReplay (j : JobRow) : JobRow := { j with replayedFromJobId := none }

/-- The parameters of `purge_jobs`. -/
structure PurgeArgs where
  succeededDays : Int
  deadLetterDays : Int
  batchSize : ℕ

/-- `completed_at < now() - (:days * interval '1 day')`. -/
def completedBefore (now : Timestamp) (age : Int) (j : JobRow) : Bool :=
  j.completedAt.any fun done => done < now - days age

/-- The filter of `PURGE_JOBS_SQL`. -/
def Purgeable (now : Timestamp) (args : PurgeArgs) (j : JobRow) : Prop :=
  (j.status = .succeeded ∧ completedBefore now args.succeededDays j = true) ∨
    (j.status = .deadLetter ∧ completedBefore now args.deadLetterDays j = true) ∨
    (j.status = .cancelled ∧ completedBefore now args.deadLetterDays j = true)

instance (now : Timestamp) (args : PurgeArgs) (j : JobRow) : Decidable (Purgeable now args j) :=
  inferInstanceAs (Decidable (_ ∨ _))

end PgRelay
