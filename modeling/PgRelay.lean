import PgRelay.Lineage
import PgRelay.AuditTrail
import PgRelay.DueTimes
import PgRelay.QueueSettings
import PgRelay.CommitOrder
import PgRelay.Stats
import PgRelay.CanonicalJson
import PgRelay.WorkerRegistry
import PgRelay.HandlerRegistry
import PgRelay.QueueNames
import PgRelay.Delivery
import PgRelay.ConnectionPool
import PgRelay.StrandedJobs
import PgRelay.Lifecycle
import PgRelay.QueueLimit
import PgRelay.AttemptCost
import PgRelay.ClaimDeadlock
import PgRelay.PauseBarrier
import PgRelay.PurgeUntilDone
import PgRelay.ConflictReread
import PgRelay.Replays
import PgRelay.Drain
import PgRelay.Outbox
import PgRelay.CleanShutdown
import PgRelay.ClaimSchedule
import PgRelay.Redaction
import PgRelay.EnqueueErrors
import PgRelay.RequestHeaders
import PgRelay.RequestBody
import PgRelay.SafeConnect
import PgRelay.ApiAuth
import PgRelay.JobListing
import PgRelay.ClaimLoop
import PgRelay.Backoff
import PgRelay.ResponsePreview
