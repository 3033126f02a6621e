import PgRelay.RowStore.Table

/-!
# The tables

The rows of `pgrelay_queue`, `pgrelay_job` and `pgrelay_attempt` with the columns of the initial
migration. Timestamps are microseconds, the resolution of `timestamptz`. Job ids stand for the
UUIDs drawn by `gen_random_uuid()`; only their being distinct matters.

An attempt row belongs to the job its `job_id` references and is deleted with it, so the attempt
rows of a job are kept beside its row, in insertion order, and carry neither their own id nor the
`job_id`.
-/

namespace PgRelay

open RowStore

/-- The id of a job; it stands for its UUID. -/
abbrev JobId := ℕ

/-- The name of a transaction. -/
abbrev TxnId := ℕ

/-- The id of a worker. -/
abbrev WorkerId := String

/-- The name of a queue. -/
abbrev QueueName := String

/-- Microseconds since the epoch. -/
abbrev Timestamp := Int

/-- `n * interval '1 second'`. -/
def seconds (n : Int) : Int := n * 1000000

/-- `n * interval '1 millisecond'`. -/
def milliseconds (n : Int) : Int := n * 1000

/-- `n * interval '1 day'`. -/
def days (n : Int) : Int := seconds (n * 86400)

/-- A JSON value; a float is kept as the text that represents it. -/
inductive Json
  | null
  | bool (b : Bool)
  | int (n : Int)
  | float (text : String)
  | str (s : String)
  | arr (items : List Json)
  | obj (fields : List (String × Json))

/-- `ck_pgrelay_job_kind`. -/
inductive JobKind
  | http
  | handler
  deriving DecidableEq, Repr

/-- `ck_pgrelay_job_status`. -/
inductive JobStatus
  | pending
  | leased
  | succeeded
  | deadLetter
  | cancelled
  deriving DecidableEq, Repr

/-- The states in which a job stays until it is purged. -/
def JobStatus.isFinal : JobStatus → Bool
  | .pending | .leased => false
  | .succeeded | .deadLetter | .cancelled => true

/-- `ck_pgrelay_attempt_status`. -/
inductive AttemptStatus
  | succeeded
  | failed
  | timeout
  | leaseExpired
  deriving DecidableEq, Repr

/-- A row of `pgrelay_queue`. -/
structure QueueRow where
  name : QueueName
  paused : Bool
  concurrencyLimit : Int
  createdAt : Timestamp
  updatedAt : Timestamp
  deriving DecidableEq, Repr

/-- A row of `pgrelay_job`, which is also the `JobRow` the repository returns. -/
structure JobRow where
  id : JobId
  queueName : QueueName
  kind : JobKind
  name : String
  payload : Json
  headers : Json
  metadata : Json
  status : JobStatus
  priority : Int
  maxAttempts : Int
  attemptCount : Int
  availableAt : Timestamp
  timeoutSeconds : Int
  idempotencyKey : Option String
  dedupeKey : Option String
  replayedFromJobId : Option JobId
  lockedBy : Option WorkerId
  lockedUntil : Option Timestamp
  lastErrorType : Option String
  lastErrorMessage : Option String
  lastResponseStatus : Option Int
  traceId : Option String
  createdAt : Timestamp
  updatedAt : Timestamp
  completedAt : Option Timestamp

/-- A row of `pgrelay_attempt`. -/
structure AttemptRow where
  attemptNumber : Int
  workerId : WorkerId
  status : AttemptStatus
  startedAt : Timestamp
  finishedAt : Timestamp
  durationMs : Int
  errorType : Option String
  errorMessage : Option String
  responseStatus : Option Int
  responseBodyPreview : Option String
  deriving DecidableEq, Repr

/-- A job with the attempt rows that reference it. -/
structure JobEntry where
  row : JobRow
  attempts : List AttemptRow

/-- The primary key of `pgrelay_job`. -/
def JobEntry.id (entry : JobEntry) : JobId := entry.row.id

/-- `pgrelay_job` together with `pgrelay_attempt`. -/
abbrev JobTable := Table JobEntry.id

/-- `pgrelay_queue`. -/
abbrev QueueTable := Table QueueRow.name

end PgRelay
