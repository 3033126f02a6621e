import PgRelay.Recording
import PgRelay.RowStore.Runs

/-!
# The tasks of one execution

`_execute_job` runs the job in one asyncio task and its heartbeat in another, and waits for both. The
event loop lets any of the three go on whenever what it waits for is there, and other sessions change
the job meanwhile. Cancelling a task raises `CancelledError` where it waits; a task that waits for
another task passes the cancellation on to it. So a shutdown, a lost lease and a handler that raises
`CancelledError` itself reach `_execute_job` as the same exception.

A call of the repository is one step here: in the transaction model it changes the job under its row
lock and after the ownership test. The fields that record a shutdown, a lost lease and a failure of the
database are history variables, which no step reads.
-/

namespace PgRelay

open RowStore

/-! ## The dispatched job -/

/-- What the code inside the timeout of a job has done. -/
inductive Reply
  | http (reply : HttpReply)
  | handler (reply : HandlerReply)

/-- The kind of the jobs that a reply can come from. -/
def Reply.kind : Reply → JobKind
  | .http _ => .http
  | .handler _ => .handler

/-- The exception a reply has raised. -/
def Reply.exception : Reply → Option PyException
  | .http (.raised exc) | .handler (.raised exc) => some exc
  | .http (.response _ _ _) | .handler .unregistered | .handler .returned => none

/-- How the task of `_dispatch_job` ends: the reply, whether the deadline of its `asyncio.timeout` had
passed, and whether anybody else had asked for the cancellation of the task. -/
structure Ending where
  reply : Reply
  expired : Bool
  cancelling : Bool
  durationMs : ℕ

/-- The `TimeoutError` that `asyncio.timeout` raises. -/
def timeoutError : PyException where
  cls := .timeoutError
  typeName := PyText.ofString "TimeoutError"
  message := []
  typeName_storable := storable_ofString (by decide)

/-- `asyncio.timeout` takes a cancellation for its own once its deadline has passed and nobody else has
asked for one. -/
def Ending.timedOut (ending : Ending) (exc : PyException) : Bool :=
  ending.expired && !ending.cancelling && decide (exc.cls = .cancelledError)

/-- The behaviour of the execution, outside the timeout. -/
def Ending.behaviour (ending : Ending) : Behaviour :=
  match ending.reply with
  | .http (.raised exc) => if ending.timedOut exc then .httpDeadline else .http (.raised exc)
  | .http reply => .http reply
  | .handler (.raised exc) => .handler (.raised (if ending.timedOut exc then timeoutError else exc))
  | .handler reply => .handler reply

/-- The state of the task of `_dispatch_job`. -/
inductive DispatchState
  | created
  | running (cancelling : Bool)
  | ended (ending : Ending)

/-- The task runs and its cancellation has been asked for. -/
def DispatchState.isCancelling : DispatchState → Bool
  | .running cancelling => cancelling
  | .created | .ended _ => false

/-- `execute_task.cancel()`. -/
def DispatchState.cancel : DispatchState → DispatchState
  | .running _ => .running true
  | state => state

/-! ## The heartbeat -/

/-- How `run_lease_heartbeat` ends. -/
inductive HeartbeatEnd
  | returned (owned : Bool)
  | cancelled
  | raised
  deriving DecidableEq

/-- Where `run_lease_heartbeat` stands: before the loop condition, in the transaction, after its
commit, in the sleep. -/
inductive HeartbeatPc
  | created
  | checking
  | extending
  | extended (updated : Bool)
  | sleeping
  | done (outcome : HeartbeatEnd)
  deriving DecidableEq

/-- The heartbeat has been told that the lease is lost, or has failed. -/
def HeartbeatPc.hasFailed : HeartbeatPc → Bool
  | .extended false | .done (.returned false) | .done .raised => true
  | _ => false

/-- `heartbeat_task.cancelled()`. -/
def HeartbeatPc.wasCancelled : HeartbeatPc → Bool
  | .done .cancelled => true
  | _ => false

/-- `heartbeat_task.done()`. -/
def HeartbeatPc.isDone : HeartbeatPc → Bool
  | .done _ => true
  | _ => false

/-! ## `_execute_job` -/

/-- How `_execute_job` ends. -/
inductive Exit
  | finished
  | cancelled
  | raised (exc : PyException)

/-- Where `_execute_job` stands. -/
inductive ExecutePc
  | created
  /-- `await execute_task`. -/
  | awaitingResult
  /-- `_await_cancelled` in `_finish_heartbeat`. -/
  | finishingHeartbeat (result : ExecutorResult)
  /-- The transaction of `_record_result`. -/
  | recording (result : ExecutorResult)
  | recorded
  /-- `_await_cancelled` in the `except asyncio.CancelledError` clause. -/
  | stoppingHeartbeat
  /-- The transaction of `_return_job_to_pending`. -/
  | returning
  /-- `_await_cancelled` in the `finally` clause. -/
  | closing (exit : Exit)
  | done (exit : Exit)

/-- The task of `_execute_job` is done. -/
def ExecutePc.isDone : ExecutePc → Bool
  | .done _ => true
  | _ => false

/-- The result of the execution is neither recorded nor given up. -/
def ExecutePc.isOpen : ExecutePc → Bool
  | .recorded | .closing _ | .done _ => false
  | _ => true

/-- One run of `_execute_job`: its tasks with the cancellations that have not been raised yet, and the
row of the job with the operations committed on it since the run began. -/
structure JobRun where
  pc : ExecutePc
  cancelled : Bool
  dispatch : DispatchState
  heartbeat : HeartbeatPc
  heartbeatCancelled : Bool
  entry : Option JobEntry
  log : List LogEntry
  shutdown : Bool
  leaseLost : Bool
  databaseFailed : Bool

/-- A run that begins with the row `start`. -/
def JobRun.init (start : JobEntry) : JobRun where
  pc := .created
  cancelled := false
  dispatch := .created
  heartbeat := .created
  heartbeatCancelled := false
  entry := some start
  log := []
  shutdown := false
  leaseLost := false
  databaseFailed := false

/-- `heartbeat_task.cancel()` on the way to the next wait. -/
def JobRun.cancelHeartbeat (s : JobRun) (next : ExecutePc) : JobRun :=
  { s with pc := next, heartbeatCancelled := true }

/-- `_finish_heartbeat` up to its wait, and what follows where it does not wait. -/
def JobRun.finishHeartbeat (s : JobRun) (result : ExecutorResult) : JobRun :=
  match s.heartbeat with
  | .done outcome =>
    if outcome = .returned true then { s with pc := .recording result }
    else s.cancelHeartbeat (.closing .finished)
  | _ => s.cancelHeartbeat (.finishingHeartbeat result)

/-- `_execute_job` after `await execute_task`. -/
def JobRun.afterDispatch (codecs : Codecs) (s : JobRun) (ending : Ending) : JobRun :=
  match executionResult codecs ending.behaviour ending.durationMs with
  | .ok result => s.finishHeartbeat result
  | .error exc =>
    if exc.cls = .cancelledError then s.cancelHeartbeat .stoppingHeartbeat
    else s.cancelHeartbeat (.closing (.raised exc))

/-- What follows an `_await_cancelled(heartbeat_task)`. -/
def ExecutePc.afterHeartbeat : ExecutePc → Option ExecutePc
  | .finishingHeartbeat result => some (.recording result)
  | .stoppingHeartbeat => some .returning
  | .closing exit => some (.done exit)
  | _ => none

/-- `CancelledError` raised where `_execute_job` waits; `_await_cancelled` swallows it. -/
def JobRun.raiseCancelled (s : JobRun) : JobRun :=
  let s := { s with cancelled := false }
  match s.pc with
  | .created => { s with pc := .done .cancelled }
  | .awaitingResult | .recording _ | .recorded => s.cancelHeartbeat .stoppingHeartbeat
  | .returning => s.cancelHeartbeat (.closing .cancelled)
  | .finishingHeartbeat result => { s with pc := .recording result }
  | .stoppingHeartbeat => { s with pc := .returning }
  | .closing exit | .done exit => { s with pc := .done exit }

/-- `task.cancel()`: the cancellation goes to the task that is waited for, if there is one. -/
def JobRun.cancel (s : JobRun) : JobRun :=
  match s.pc with
  | .awaitingResult =>
    match s.dispatch with
    | .running _ => { s with dispatch := .running true }
    | .created | .ended _ => { s with cancelled := true }
  | .finishingHeartbeat _ | .stoppingHeartbeat | .closing _ =>
    if s.heartbeat.isDone then { s with cancelled := true } else { s with heartbeatCancelled := true }
  | .created | .recording _ | .recorded | .returning | .done _ => { s with cancelled := true }

/-- A call of the repository: what it leaves of the job, and whether it has updated it. -/
def JobRun.call (s : JobRun) (t : TxnId) (now : Timestamp) (x : Execution) (op : CallOp) :
    JobRun × Bool :=
  match s.entry with
  | none => (s, false)
  | some entry =>
    if OwnedBy x.worker entry.row then
      let change := callChange t now x entry op
      ({ s with entry := change.version, log := s.log ++ [change.event] }, true)
    else (s, false)

/-- The worker of an execution owns the job. -/
def Execution.owns (x : Execution) (entry : Option JobEntry) : Bool :=
  entry.any fun entry => decide (OwnedBy x.worker entry.row)

/-- Who takes a step: the tasks of the run, a failing database, a shutdown, or another session. -/
inductive Mover
  | tasks
  | database
  | shutdown
  | others

/-- The steps of a run of `_execute_job`. -/
inductive JobRun.Step (codecs : Codecs) (x : Execution) (s : JobRun) : Mover → JobRun → Prop
  | start (hpc : s.pc = .created) (hcalm : s.cancelled = false) :
      Step codecs x s .tasks { s with pc := .awaitingResult, dispatch := .running false, heartbeat := .checking }
  | dispatched {ending} (hpc : s.pc = .awaitingResult) (hended : s.dispatch = .ended ending)
      (hcalm : s.cancelled = false) : Step codecs x s .tasks (s.afterDispatch codecs ending)
  | heartbeatDone {next} (hnext : s.pc.afterHeartbeat = some next) (hdone : s.heartbeat.isDone = true)
      (hcalm : s.cancelled = false) : Step codecs x s .tasks { s with pc := next }
  | record (t now retryDelaySeconds) {result op} (hpc : s.pc = .recording result)
      (hop : recordOp retryDelaySeconds result = some op)
      (haccepted : (s.call t now x op).2 = true → ∀ entry ∈ (s.call t now x op).1.entry, RecordAccepted entry) :
      Step codecs x s .tasks { (s.call t now x op).1 with pc := .recorded }
  | recordFails {result exc} (hpc : s.pc = .recording result) (hexc : exc.cls.isException = true) :
      Step codecs x s .database { s.cancelHeartbeat (.closing (.raised exc)) with databaseFailed := true }
  | close (hpc : s.pc = .recorded) (hcalm : s.cancelled = false) :
      Step codecs x s .tasks (s.cancelHeartbeat (.closing .finished))
  | giveBack (t now) (hpc : s.pc = .returning) :
      Step codecs x s .tasks ((s.call t now x .returnToPending).1.cancelHeartbeat (.closing .cancelled))
  | giveBackFails (hpc : s.pc = .returning) :
      Step codecs x s .database { s.cancelHeartbeat (.closing .cancelled) with databaseFailed := true }
  | cancelled (hpc : s.pc.isDone = false) (hcancelled : s.cancelled = true) : Step codecs x s .tasks s.raiseCancelled
  | dispatchEnds {cancelling} {ending : Ending} (hrunning : s.dispatch = .running cancelling)
      (hkind : ending.reply.kind = x.job.kind) (hcancelling : cancelling = true → ending.cancelling = true) :
      Step codecs x s .tasks { s with dispatch := .ended ending }
  | beat (hbeat : s.heartbeat = .checking) (hcalm : s.heartbeatCancelled = false)
      (hrunning : ∀ ending, s.dispatch ≠ .ended ending) : Step codecs x s .tasks { s with heartbeat := .extending }
  | beatEnds {ending} (hbeat : s.heartbeat = .checking) (hcalm : s.heartbeatCancelled = false)
      (hended : s.dispatch = .ended ending) : Step codecs x s .tasks { s with heartbeat := .done (.returned true) }
  | extend (t now leaseSeconds) (hbeat : s.heartbeat = .extending) :
      Step codecs x s .tasks { (s.call t now x (.extendLease leaseSeconds)).1 with
        heartbeat := .extended (s.call t now x (.extendLease leaseSeconds)).2 }
  | extendFails (hbeat : s.heartbeat = .extending) :
      Step codecs x s .database { s with heartbeat := .done .raised, databaseFailed := true }
  | sleep (hbeat : s.heartbeat = .extended true) (hcalm : s.heartbeatCancelled = false) :
      Step codecs x s .tasks { s with heartbeat := .sleeping }
  | leaseLost (hbeat : s.heartbeat = .extended false) (hcalm : s.heartbeatCancelled = false) :
      Step codecs x s .tasks { s with heartbeat := .done (.returned false), dispatch := s.dispatch.cancel }
  | wake (hbeat : s.heartbeat = .sleeping) (hcalm : s.heartbeatCancelled = false) :
      Step codecs x s .tasks { s with heartbeat := .checking }
  | beatCancelled (hcancelled : s.heartbeatCancelled = true) (hrunning : s.heartbeat.isDone = false) :
      Step codecs x s .tasks { s with heartbeat := .done .cancelled }
  | shutdown (hpc : s.pc.isDone = false) : Step codecs x s .shutdown { s.cancel with shutdown := true }
  | other {op after} (hacts : JobActs op s.entry after) (hother : op.event.caller ≠ some x) :
      Step codecs x s .others { s with
        entry := after
        log := s.log ++ [op]
        leaseLost := s.leaseLost || (s.pc.isOpen && !x.owns after) }

/-- The states of a run of `_execute_job` that begins with the row `start`. -/
def JobRun.Reached (codecs : Codecs) (x : Execution) (start : JobEntry) : JobRun → Prop :=
  Relation.ReflTransGen (fun s s' => ∃ mover, JobRun.Step codecs x s mover s') (JobRun.init start)

variable {codecs : Codecs} {x : Execution} {start : JobEntry} {s s' : JobRun} {mover : Mover}

/-- A call leaves the tasks alone. -/
theorem JobRun.call_eq (s : JobRun) (t : TxnId) (now : Timestamp) (x : Execution) (op : CallOp) :
    ∃ entry log, (s.call t now x op).1 = { s with entry := entry, log := log } := by
  unfold JobRun.call
  split
  · exact ⟨_, _, rfl⟩
  · split_ifs <;> exact ⟨_, _, rfl⟩

/-! ## The end of a run -/

/-- How many steps at most are left from here, once the dispatched job has ended. -/
def ExecutePc.rank : ExecutePc → ℕ
  | .created => 8
  | .awaitingResult => 7
  | .finishingHeartbeat _ => 6
  | .recording _ => 5
  | .recorded => 4
  | .stoppingHeartbeat => 3
  | .returning => 2
  | .closing _ => 1
  | .done _ => 0

/-- The same for the heartbeat, which leaves its loop when it comes to the condition again. -/
def HeartbeatPc.rank : HeartbeatPc → ℕ
  | .created => 5
  | .extending => 4
  | .extended _ => 3
  | .sleeping => 2
  | .checking => 1
  | .done _ => 0

/-- The steps that are left to `_execute_job` and its heartbeat. -/
def JobRun.remaining (s : JobRun) : ℕ := s.pc.rank + s.heartbeat.rank

/-- The tasks are created together, by the first step. -/
structure Spawned (s : JobRun) : Prop where
  pc : s.pc = .created → s.dispatch = .created
  heartbeat : s.heartbeat = .created → s.dispatch = .created

/-- A raised cancellation moves `_execute_job` on. -/
theorem JobRun.raiseCancelled_eq (hpc : s.pc.isDone = false) :
    ∃ next stop, next.rank < s.pc.rank ∧
      s.raiseCancelled = { s with pc := next, cancelled := false, heartbeatCancelled := stop } := by
  unfold JobRun.raiseCancelled JobRun.cancelHeartbeat
  cases hold : s.pc with
  | done exit => simp [hold, ExecutePc.isDone] at hpc
  | _ => exact ⟨_, _, by simp [ExecutePc.rank], rfl⟩

/-- The end of the dispatched job moves `_execute_job` on. -/
theorem JobRun.afterDispatch_eq (hpc : s.pc = .awaitingResult) (codecs : Codecs) (ending : Ending) :
    ∃ next stop, next.rank < s.pc.rank ∧
      s.afterDispatch codecs ending = { s with pc := next, heartbeatCancelled := stop } := by
  unfold JobRun.afterDispatch JobRun.finishHeartbeat JobRun.cancelHeartbeat
  repeat' split
  all_goals exact ⟨_, _, by simp [hpc, ExecutePc.rank], rfl⟩

/-- The end of the heartbeat moves `_execute_job` on. -/
theorem ExecutePc.rank_afterHeartbeat {pc next : ExecutePc} (h : pc.afterHeartbeat = some next) :
    next.rank < pc.rank := by
  cases pc <;> cases h <;> simp [ExecutePc.rank]

/-- `task.cancel()` changes requests for cancellation only. -/
theorem JobRun.cancel_eq (s : JobRun) : ∃ cancelled dispatch stop,
    (dispatch = s.dispatch ∨ dispatch = s.dispatch.cancel) ∧
      s.cancel = { s with cancelled := cancelled, dispatch := dispatch, heartbeatCancelled := stop } := by
  unfold JobRun.cancel
  split
  · split
    case h_1 old hrunning => exact ⟨_, _, _, .inr (by rw [hrunning]; rfl), rfl⟩
    all_goals exact ⟨_, _, _, .inl rfl, rfl⟩
  all_goals (try split_ifs) <;> exact ⟨_, _, _, .inl rfl, rfl⟩

/-- What a step does to the tasks. -/
inductive JobRun.Moves (s s' : JobRun) : Mover → Prop
  | start (hcreated : s.pc = .created) (hpc : s'.pc = .awaitingResult) (hbeat : s'.heartbeat = .checking) :
      Moves s s' .tasks
  | main {mover : Mover} (hrank : s'.pc.rank < s.pc.rank) (hbeat : s'.heartbeat = s.heartbeat)
      (hdispatch : s'.dispatch = s.dispatch) : Moves s s' mover
  | beat {mover : Mover} (hpc : s'.pc = s.pc) (hcreated : s'.heartbeat ≠ .created)
      (hrank : (∃ ending, s.dispatch = .ended ending) → s'.heartbeat.rank < s.heartbeat.rank)
      (hdispatch : s'.dispatch = s.dispatch ∨ s'.dispatch = s.dispatch.cancel) : Moves s s' mover
  | dispatch {cancelling : Bool} (hrunning : s.dispatch = .running cancelling) (hpc : s'.pc = s.pc)
      (hbeat : s'.heartbeat = s.heartbeat) : Moves s s' .tasks
  | outside {mover : Mover} (hmover : mover ≠ .tasks) (hpc : s'.pc = s.pc) (hbeat : s'.heartbeat = s.heartbeat)
      (hdispatch : s'.dispatch = s.dispatch ∨ s'.dispatch = s.dispatch.cancel) : Moves s s' mover

/-- Every step is one of the moves. -/
theorem JobRun.Step.moves (h : s.Step codecs x mover s') : s.Moves s' mover := by
  cases h with
  | start hpc => exact .start hpc rfl rfl
  | @dispatched ending hpc =>
    obtain ⟨next, stop, hrank, heq⟩ := JobRun.afterDispatch_eq hpc codecs ending
    rw [heq]
    exact .main hrank rfl rfl
  | heartbeatDone hnext => exact .main (ExecutePc.rank_afterHeartbeat hnext) rfl rfl
  | @record t now retryDelaySeconds result op hpc =>
    obtain ⟨entry, log, hcall⟩ := s.call_eq t now x op
    rw [hcall]
    exact .main (by simp [hpc, ExecutePc.rank]) rfl rfl
  | recordFails hpc | close hpc | giveBackFails hpc =>
    exact .main (by simp [JobRun.cancelHeartbeat, hpc, ExecutePc.rank]) rfl rfl
  | giveBack t now hpc =>
    obtain ⟨entry, log, hcall⟩ := s.call_eq t now x .returnToPending
    rw [hcall]
    exact .main (by simp [JobRun.cancelHeartbeat, hpc, ExecutePc.rank]) rfl rfl
  | cancelled hpc =>
    obtain ⟨next, stop, hrank, heq⟩ := JobRun.raiseCancelled_eq hpc
    rw [heq]
    exact .main hrank rfl rfl
  | dispatchEnds hrunning => exact .dispatch hrunning rfl rfl
  | beat hbeat hcalm hrunning =>
    exact .beat rfl (by simp) (fun hended => absurd hended (by simpa using hrunning)) (.inl rfl)
  | beatEnds hbeat | extendFails hbeat | sleep hbeat | wake hbeat =>
    exact .beat rfl (by simp) (fun _ => by simp [hbeat, HeartbeatPc.rank]) (.inl rfl)
  | leaseLost hbeat => exact .beat rfl (by simp) (fun _ => by simp [hbeat, HeartbeatPc.rank]) (.inr rfl)
  | beatCancelled _ hrunning =>
    refine .beat rfl (by simp) (fun _ => ?_) (.inl rfl)
    cases hbeat : s.heartbeat <;> simp_all [HeartbeatPc.rank, HeartbeatPc.isDone]
  | extend t now leaseSeconds hbeat =>
    obtain ⟨entry, log, hcall⟩ := s.call_eq t now x (.extendLease leaseSeconds)
    rw [hcall]
    exact .beat rfl (by simp) (fun _ => by simp [hbeat, HeartbeatPc.rank]) (.inl rfl)
  | shutdown =>
    obtain ⟨cancelled, dispatch, stop, hdispatch, heq⟩ := s.cancel_eq
    rw [heq]
    exact .outside (by simp) rfl rfl hdispatch
  | other => exact .outside (by simp) rfl rfl (.inl rfl)

/-- A task that has moved on is not at its begin. -/
theorem ExecutePc.ne_created_of_rank_lt {pc next : ExecutePc} (h : next.rank < pc.rank) :
    next ≠ .created := by
  rintro rfl
  cases pc <;> simp [ExecutePc.rank] at h

/-- Cancelling a task that has not started or has ended does nothing. -/
theorem DispatchState.eq_of_cancel {state next : DispatchState}
    (hnext : next = state ∨ next = state.cancel)
    (hidle : ∀ cancelling, state ≠ .running cancelling) : next = state := by
  rcases hnext with rfl | rfl
  · rfl
  · cases state with
    | running cancelling => exact absurd rfl (hidle cancelling)
    | created | ended => rfl

/-- The tasks stay created together. -/
theorem Spawned.step (hs : Spawned s) (h : s.Step codecs x mover s') : Spawned s' := by
  cases h.moves with
  | start _ hpc hbeat => exact ⟨by simp [hpc], by simp [hbeat]⟩
  | main hrank hbeat hdispatch =>
    refine ⟨fun hpc => absurd hpc (ExecutePc.ne_created_of_rank_lt hrank), fun hcreated => ?_⟩
    rw [hdispatch]
    exact hs.heartbeat (hbeat.symm.trans hcreated)
  | beat hpc hbeat _ hdispatch =>
    refine ⟨fun hcreated => ?_, fun hcreated => absurd hcreated hbeat⟩
    have hold := hs.pc (hpc.symm.trans hcreated)
    exact (DispatchState.eq_of_cancel hdispatch (by simp [hold])).trans hold
  | dispatch hrunning hpc hbeat =>
    refine ⟨fun hcreated => ?_, fun hcreated => ?_⟩
    · cases hrunning.symm.trans (hs.pc (hpc.symm.trans hcreated))
    · cases hrunning.symm.trans (hs.heartbeat (hbeat.symm.trans hcreated))
  | outside _ hpc hbeat hdispatch =>
    refine ⟨fun hcreated => ?_, fun hcreated => ?_⟩
    · have hold := hs.pc (hpc.symm.trans hcreated)
      exact (DispatchState.eq_of_cancel hdispatch (by simp [hold])).trans hold
    · have hold := hs.heartbeat (hbeat.symm.trans hcreated)
      exact (DispatchState.eq_of_cancel hdispatch (by simp [hold])).trans hold

/-- Every step of the tasks brings a run whose dispatched job has ended nearer to its end, and no other
step takes it back. -/
theorem JobRun.Step.remaining {ending : Ending} (hs : Spawned s) (hended : s.dispatch = .ended ending)
    (h : s.Step codecs x mover s') :
    s'.dispatch = .ended ending ∧ s'.remaining ≤ s.remaining ∧ (mover = .tasks → s'.remaining < s.remaining) := by
  unfold JobRun.remaining
  cases h.moves with
  | start hcreated => cases hended.symm.trans (hs.pc hcreated)
  | main hrank hbeat hdispatch =>
    rw [hbeat, hdispatch]
    exact ⟨hended, by omega, fun _ => by omega⟩
  | beat hpc _ hrank hdispatch =>
    have hlt := hrank ⟨ending, hended⟩
    rw [hpc, DispatchState.eq_of_cancel hdispatch (by simp [hended])]
    exact ⟨hended, by omega, fun _ => by omega⟩
  | dispatch hrunning => cases hrunning.symm.trans hended
  | outside hmover hpc hbeat hdispatch =>
    rw [hpc, hbeat, DispatchState.eq_of_cancel hdispatch (by simp [hended])]
    exact ⟨hended, le_rfl, fun htasks => absurd htasks hmover⟩

/-- The database refuses the result of the run. -/
def JobRun.Refused (x : Execution) (s : JobRun) : Prop :=
  ∃ result, s.pc = .recording result ∧ ∀ t now retryDelaySeconds,
    recordOp retryDelaySeconds result = none ∨ ∃ op, recordOp retryDelaySeconds result = some op ∧
      (s.call t now x op).2 = true ∧ ∃ entry ∈ (s.call t now x op).1.entry, ¬ RecordAccepted entry

/-- A heartbeat that has not ended has a step to take, once the dispatched job has ended. -/
theorem JobRun.exists_beat {ending : Ending} (hs : Spawned s) (hended : s.dispatch = .ended ending)
    (hbeat : s.heartbeat.isDone = false) : ∃ s', s.Step codecs x .tasks s' := by
  cases hcancelled : s.heartbeatCancelled with
  | true => exact ⟨_, .beatCancelled hcancelled hbeat⟩
  | false =>
    cases hpc : s.heartbeat with
    | created => cases hended.symm.trans (hs.heartbeat hpc)
    | checking => exact ⟨_, .beatEnds hpc hcancelled hended⟩
    | extending => exact ⟨_, .extend 0 0 0 hpc⟩
    | extended updated =>
      cases updated with
      | true => exact ⟨_, .sleep hpc hcancelled⟩
      | false => exact ⟨_, .leaseLost hpc hcancelled⟩
    | sleeping => exact ⟨_, .wake hpc hcancelled⟩
    | done outcome => simp [hpc, HeartbeatPc.isDone] at hbeat

/-- Where `_execute_job` waits for the heartbeat, one of the two has a step to take. -/
theorem JobRun.exists_step_of_afterHeartbeat {ending : Ending} {next : ExecutePc} (hs : Spawned s)
    (hended : s.dispatch = .ended ending) (hcalm : s.cancelled = false)
    (hnext : s.pc.afterHeartbeat = some next) : ∃ s', s.Step codecs x .tasks s' := by
  cases hbeat : s.heartbeat.isDone with
  | true => exact ⟨_, .heartbeatDone hnext hbeat hcalm⟩
  | false => exact exists_beat hs hended hbeat

/-- The tasks are not stuck: once the dispatched job has ended, a step is open to them until the end,
unless the database refuses the result. -/
theorem JobRun.exists_step {ending : Ending} (hs : Spawned s) (hended : s.dispatch = .ended ending)
    (hpc : s.pc.isDone = false) : s.Refused x ∨ ∃ s', s.Step codecs x .tasks s' := by
  cases hcancelled : s.cancelled with
  | true => exact .inr ⟨_, .cancelled hpc hcancelled⟩
  | false =>
    cases hold : s.pc with
    | created => cases hended.symm.trans (hs.pc hold)
    | awaitingResult => exact .inr ⟨_, .dispatched hold hended hcancelled⟩
    | finishingHeartbeat result =>
      exact .inr (exists_step_of_afterHeartbeat hs hended hcancelled (by rw [hold]; rfl))
    | stoppingHeartbeat => exact .inr (exists_step_of_afterHeartbeat hs hended hcancelled (by rw [hold]; rfl))
    | closing exit => exact .inr (exists_step_of_afterHeartbeat hs hended hcancelled (by rw [hold]; rfl))
    | recorded => exact .inr ⟨_, .close hold hcancelled⟩
    | returning => exact .inr ⟨_, .giveBack 0 0 hold⟩
    | done exit => simp [hold, ExecutePc.isDone] at hpc
    | recording result =>
      refine or_iff_not_imp_right.mpr fun hstuck => ⟨result, hold, fun t now retryDelaySeconds => ?_⟩
      cases hop : recordOp retryDelaySeconds result with
      | none => exact .inl rfl
      | some op =>
        refine .inr ⟨op, rfl, ?_⟩
        by_contra hrefused
        refine hstuck ⟨_, .record t now retryDelaySeconds hold hop fun hupdated entry hentry => ?_⟩
        by_contra haccepted
        exact hrefused ⟨hupdated, entry, hentry, haccepted⟩

/-- Steps of others: sessions, a shutdown, a failing database. -/
def JobRun.Disturbed (codecs : Codecs) (x : Execution) : JobRun → JobRun → Prop :=
  Relation.ReflTransGen fun s s' => ∃ mover ≠ .tasks, JobRun.Step codecs x s mover s'

/-- Whatever happens meanwhile, the tasks take finitely many steps and then `_execute_job` is done,
unless the database refuses the result. -/
inductive JobRun.Settles (codecs : Codecs) (x : Execution) : JobRun → Prop
  | intro {s : JobRun} (live : ∀ s', s.Disturbed codecs x s' → s'.pc.isDone = true ∨ s'.Refused x ∨
        ∃ s'', s'.Step codecs x .tasks s'')
      (next : ∀ s' s'', s.Disturbed codecs x s' → s'.Step codecs x .tasks s'' → Settles codecs x s'') :
      Settles codecs x s

/-- A run whose dispatched job has ended comes to its end. -/
theorem JobRun.settles {ending : Ending} (hs : Spawned s) (hended : s.dispatch = .ended ending) :
    s.Settles codecs x := by
  induction hn : s.remaining using Nat.strong_induction_on generalizing s with
  | _ n ih =>
    subst hn
    have hdisturbed : ∀ s', s.Disturbed codecs x s' →
        Spawned s' ∧ s'.dispatch = .ended ending ∧ s'.remaining ≤ s.remaining := by
      intro s' h
      induction h with
      | refl => exact ⟨hs, hended, le_rfl⟩
      | tail _ hlast ihlast =>
        obtain ⟨mover, -, hstep⟩ := hlast
        obtain ⟨hs', hended', hle⟩ := ihlast
        obtain ⟨hdispatch, hrank, -⟩ := hstep.remaining hs' hended'
        exact ⟨hs'.step hstep, hdispatch, Nat.le_trans hrank hle⟩
    constructor
    · intro s' h
      obtain ⟨hs', hended', -⟩ := hdisturbed s' h
      cases hdone : s'.pc.isDone with
      | true => exact .inl rfl
      | false => exact .inr (exists_step hs' hended' hdone)
    · intro s' s'' h hstep
      obtain ⟨hs', hended', hle⟩ := hdisturbed s' h
      obtain ⟨hdispatch, -, hlt⟩ := hstep.remaining hs' hended'
      exact ih _ (Nat.lt_of_lt_of_le (hlt rfl) hle) (hs'.step hstep) hdispatch rfl

end PgRelay
