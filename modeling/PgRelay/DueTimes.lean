import PgRelay.Backoff
import PgRelay.Isolation
import PgRelay.Lifecycle

/-!
# Due times

`available_at` is set when a job is inserted and again when a failed attempt is to be repeated; claims,
heartbeats, returns and recoveries leave it alone. So the log determines at every moment when a job is
due, no claim comes before that, and the delay that the worker has calculated after a failure is kept by
all workers together, whichever of them claims the job next.
-/

namespace PgRelay

open RowStore

variable {s s' : State} {t : TxnId} {T : Txn} {effect : Effect} {id : JobId} {op : LogEntry} {log : List LogEntry}
  {settings : RetrySettings}

/-- When the job is due after an operation, given when it was due before. -/
def LogEntry.dueAfter (due : Timestamp) (op : LogEntry) : Timestamp :=
  match op.event with
  | .inserted _ job => job.availableAt.getD op.now
  | .failed x args => if shouldRetry x.job args then op.now + seconds args.retryDelaySeconds else due
  | _ => due

/-- When the job is due, as its insertion or its last failure has set it. -/
def dueTime (log : List LogEntry) : Timestamp := log.foldl LogEntry.dueAfter 0

/-- One more operation sets the due time or leaves it. -/
@[simp] theorem dueTime_snoc (log : List LogEntry) (op : LogEntry) :
    dueTime (log ++ [op]) = op.dueAfter (dueTime log) := by
  simp [dueTime]

/-- The operations that set the due time. -/
def JobEvent.setsDue : JobEvent → Bool
  | .inserted _ _ | .failed _ _ => true
  | _ => false

/-- An operation that does not set the due time leaves it. -/
theorem LogEntry.dueAfter_of_not_setsDue (h : op.event.setsDue = false) (due : Timestamp) :
    op.dueAfter due = due := by
  unfold LogEntry.dueAfter
  split
  · simp_all [JobEvent.setsDue]
  · simp_all [JobEvent.setsDue]
  · rfl

/-- Other operations leave the due time as it is. -/
theorem dueTime_append_of_not_setsDue {ops : List LogEntry} (h : ∀ op ∈ ops, op.event.setsDue = false) :
    dueTime (log ++ ops) = dueTime log := by
  induction ops using List.reverseRecOn with
  | nil => rw [List.append_nil]
  | append_singleton ops op ih =>
    rw [← List.append_assoc, dueTime_snoc, LogEntry.dueAfter_of_not_setsDue (h op (by simp)),
      ih fun op' hop' => h op' (List.mem_append_left _ hop')]

/-- Every operation changes `available_at` and the due time in the same way. -/
theorem JobActs.availableAt_eq {before after : JobEntry} (hacts : JobActs op (some before) (some after)) :
    after.row.availableAt = op.dueAfter before.row.availableAt := by
  cases hacts with
  | claimed _ hx => exact congrArg (fun x => x.job.availableAt) hx
  | failed => rfl
  | _ => rfl

/-- The row of a job says when the job is due. -/
theorem JobHistory.availableAt_eq {entry : JobEntry} (h : JobHistory id log (some entry)) :
    entry.row.availableAt = dueTime log := by
  refine h.invariant (I := fun log entry => entry.row.availableAt = dueTime log) (fun op entry hacts => ?_)
    fun log op before after _ _ hacts hbefore => ?_
  · cases hacts with
    | inserted hmax => rfl
  · rw [dueTime_snoc, ← hbefore]
    exact hacts.availableAt_eq

/-- No job is claimed before it is due. -/
theorem Reachable.due_of_claim (h : Reachable s) {pre post : List LogEntry}
    (hlog : jobLog s.log id = pre ++ op :: post) (hclaim : op.event.isClaim = true) : dueTime pre ≤ op.now := by
  have hhistory := h.jobHistory id
  rw [hlog] at hhistory
  obtain ⟨before, after, hbefore, hacts, -⟩ := hhistory.split
  cases hacts with
  | @claimed t now x leaseSeconds entry hclaimable =>
    rw [← hbefore.availableAt_eq]
    exact hclaimable.2.1
  | _ => cases hclaim

/-! ## The delays of the workers -/

/-- The result with which an execution calls `fail_job` asks for a delay that the backoff of its attempt
can give. -/
def BacksOff (settings : RetrySettings) (x : Execution) : CallOp → Prop
  | .fail args => ∃ draw, |draw| ≤ retryJitter x.job.attemptCount settings ∧
      args.retryDelaySeconds = calculateRetryDelaySeconds x.job.attemptCount settings draw
  | _ => True

/-- The executions record their results as the runner does. -/
def recordsResults (settings : RetrySettings) (s : State) : Action → Prop
  | .begin (.call i op) => ∀ x, s.executions[i]? = some x → BacksOff settings x op
  | _ => True

/-- What `_record_result` passes to `fail_job` backs off. -/
theorem backsOff_of_recordOp {x : Execution} {draw : ℚ} {result : ExecutorResult} {op : CallOp}
    (hdraw : |draw| ≤ retryJitter x.job.attemptCount settings)
    (hop : recordOp (calculateRetryDelaySeconds x.job.attemptCount settings draw) result = some op) :
    BacksOff settings x op := by
  unfold recordOp at hop
  split_ifs at hop
  · obtain ⟨_, -, hop⟩ := Option.bind_eq_some_iff.mp hop
    cases hop
    trivial
  · obtain ⟨_, -, hop⟩ := Option.bind_eq_some_iff.mp hop
    obtain ⟨_, -, hop⟩ := Option.bind_eq_some_iff.mp hop
    obtain ⟨_, -, hop⟩ := Option.bind_eq_some_iff.mp hop
    cases hop
    exact ⟨draw, hdraw, rfl⟩

/-- The delay grows with the draw, so no draw gives less than the lowest. -/
theorem calculateRetryDelaySeconds_neg_jitter_le {n : ℤ} {draw : ℚ} (hdraw : |draw| ≤ retryJitter n settings) :
    calculateRetryDelaySeconds n settings (-retryJitter n settings) ≤ calculateRetryDelaySeconds n settings draw := by
  refine max_le_max_left _ (min_le_min_left _ (truncate_mono ?_))
  linarith only [(abs_le.mp hdraw).1]

/-- Every call in a run of such workers backs off. -/
theorem backsOff_of_reaches {clock : Timestamp}
    (h : ReachesUnder step (recordsResults settings) (State.init clock) s) :
    ∀ t T, s.txns t = some T → ∀ x op pc, T.task = .call x op pc → BacksOff settings x op := by
  refine ReachesUnder.txn_rule (P := fun _ _ T => ∀ x op pc, T.task = .call x op pc → BacksOff settings x op)
    ?_ ?_ ?_ h
  · intro s request task hreach hok hr x op pc htask
    obtain rfl : task = .call x op pc := htask
    cases request with
    | call i op' =>
      obtain ⟨y, hy, heq⟩ := Option.map_eq_some_iff.mp hr
      obtain ⟨rfl, rfl, -⟩ := Task.call.inj heq
      exact hok y hy
    | enqueue job =>
      simp only [Request.task] at hr
      split_ifs at hr
      cases hr
    | _ => cases hr
  · intro s t T a effect hreach hT hok he hold x op pc' htask
    have hleads := he.steps.leadsTo
    rw [show effect.task = .call x op pc' from htask] at hleads
    obtain ⟨pc, hpc⟩ := hleads.call
    exact hold x op pc hpc
  · intro s a s' t T _ _ _ _ _ _ hold
    exact hold

/-- Every failure that is logged in such a run has backed off. -/
theorem backsOff_of_failed {clock : Timestamp}
    (h : ReachesUnder step (recordsResults settings) (State.init clock) s) {x : Execution} {args : FailArgs}
    (hop : op ∈ s.log) (hevent : op.event = .failed x args) : BacksOff settings x (.fail args) := by
  induction h generalizing op with
  | refl => cases hop
  | @tail s' s'' hrun hlast ih =>
    obtain ⟨a, -, hs⟩ := hlast
    have hreach : Reachable s' := ⟨clock, ReachesUnder.reaches hrun⟩
    rcases step_cases hs with ⟨elapsed, -, rfl⟩ | ⟨request, task, -, hr, rfl⟩ |
      ⟨u, U, effect, hU, he, rfl⟩ | ⟨u, U, -, hU, -, rfl⟩ | ⟨u, U, -, -, rfl⟩
    · exact ih hop hevent
    · exact ih hop hevent
    · exact ih hop hevent
    · rcases List.mem_append.mp hop with hold | hnew
      · exact ih hold hevent
      · obtain ⟨c, hc, rfl⟩ := List.mem_map.mp hnew
        have hmem : .failed x args ∈ U.events := List.mem_map.mpr ⟨c, hc, hevent⟩
        rcases (hreach.writes hU).mem_cases hmem with ⟨_, _, -, ⟨_, heq⟩ | ⟨_, heq⟩⟩ | ⟨y, op, htask, heq, -⟩ |
          ⟨_, heq⟩ | ⟨_, _, heq⟩ | ⟨_, heq⟩ | ⟨_, _, heq⟩
        · cases heq
        · cases heq
        · have hbacks := backsOff_of_reaches hrun u U hU y op _ htask
          cases op <;> cases heq
          exact hbacks
        · cases heq
        · cases heq
        · cases heq
        · cases heq
    · exact ih hop hevent

/-! ## When a job is claimed -/

/-- The log determines when a job is due. A scheduled job is not claimed before its time, and after a
failure it is not claimed before the delay of that attempt has passed: not by any worker, whatever is
returned, recovered or claimed again in between. -/
structure ClaimsWhenDue (settings : RetrySettings) (s : State) : Prop where
  row : ∀ id entry, s.jobs.get id = some entry → entry.row.availableAt = dueTime (jobLog s.log id)
  scheduled : ∀ id pre ins between claim post id' job, jobLog s.log id = pre ++ ins :: (between ++ claim :: post) →
    ins.event = .inserted id' job → claim.event.isClaim = true → (∀ op ∈ between, op.event.setsDue = false) →
    job.availableAt.getD ins.now ≤ claim.now
  repeated : ∀ id pre failure between claim post x args,
    jobLog s.log id = pre ++ failure :: (between ++ claim :: post) → failure.event = .failed x args →
    claim.event.isClaim = true → (∀ op ∈ between, op.event.setsDue = false) →
    failure.now + seconds 1 ≤ claim.now ∧ failure.now + seconds (calculateRetryDelaySeconds x.job.attemptCount
      settings (-retryJitter x.job.attemptCount settings)) ≤ claim.now

/-- A job that is claimed after a failure was to be repeated. -/
theorem JobHistory.retried_of_claim {pre between : List LogEntry} {failure claim : LogEntry} {x : Execution}
    {args : FailArgs} {row : Option JobEntry}
    (h : JobHistory id (pre ++ failure :: (between ++ [claim])) row) (hfailure : failure.event = .failed x args)
    (hclaim : claim.event.isClaim = true) : shouldRetry x.job args = true := by
  rw [List.append_cons] at h
  obtain ⟨after, hafter⟩ := h.of_append
  obtain ⟨before, -, hacts, -⟩ := hafter.of_snoc
  obtain ⟨t, now, event⟩ := failure
  obtain rfl : event = _ := hfailure
  cases hacts with
  | @failed _ _ _ _ entry howned =>
    by_contra hdead
    have hfinal : (failUpdate now (shouldRetry x.job args) args entry.row).status.isFinal = true := by
      rw [Bool.eq_false_of_not_eq_true hdead]
      rfl
    obtain ⟨hops, -⟩ := JobHistory.remains hafter hfinal h
    rcases hops claim (by simp) with ⟨_, hevent⟩ | ⟨_, _, hevent⟩ <;> rw [hevent] at hclaim <;> cases hclaim

/-- In every run whose workers record their results as the runner does, jobs are claimed when they are
due. -/
theorem claims_when_due {clock : Timestamp}
    (h : ReachesUnder step (recordsResults settings) (State.init clock) s) : ClaimsWhenDue settings s := by
  have hreach : Reachable s := ⟨clock, ReachesUnder.reaches h⟩
  have hdue {id : JobId} {pre between post : List LogEntry} {first claim : LogEntry}
      (hlog : jobLog s.log id = pre ++ first :: (between ++ claim :: post)) (hclaim : claim.event.isClaim = true)
      (hbetween : ∀ op ∈ between, op.event.setsDue = false) : first.dueAfter (dueTime pre) ≤ claim.now := by
    rw [← List.cons_append, ← List.append_assoc] at hlog
    have hle := hreach.due_of_claim hlog hclaim
    rwa [List.append_cons, dueTime_append_of_not_setsDue hbetween, dueTime_snoc] at hle
  refine ⟨fun id entry hget => ?_, fun id pre ins between claim post id' job hlog hins hclaim hbetween => ?_,
    fun id pre failure between claim post x args hlog hfailure hclaim hbetween => ?_⟩
  · exact JobHistory.availableAt_eq (hget ▸ hreach.jobHistory id)
  · have hle := hdue hlog hclaim hbetween
    simpa only [LogEntry.dueAfter, hins] using hle
  · have hhistory := hreach.jobHistory id
    rw [hlog, List.append_cons between, ← List.cons_append, ← List.append_assoc] at hhistory
    obtain ⟨row, hrow⟩ := hhistory.of_append
    have hretry := hrow.retried_of_claim hfailure hclaim
    have hle := hdue hlog hclaim hbetween
    simp only [LogEntry.dueAfter, hfailure, hretry, if_true] at hle
    have hmem : failure ∈ s.log := by
      have hlogged : failure ∈ jobLog s.log id := by simp [hlog]
      exact (List.mem_filter.mp hlogged).1
    obtain ⟨draw, hdraw, hdelay⟩ := backsOff_of_failed h hmem hfailure
    rw [hdelay] at hle
    have hone := seconds_mono (one_le_calculateRetryDelaySeconds x.job.attemptCount settings draw)
    have hlow := seconds_mono (calculateRetryDelaySeconds_neg_jitter_le hdraw)
    exact ⟨by linarith only [hone, hle], by linarith only [hlow, hle]⟩

/-- The delay that a call asks for is that of its execution, without jitter. -/
def checksDelays (s : State) : Action → Bool
  | .begin (.call i (.fail args)) => (s.executions[i]?).all fun x =>
      args.retryDelaySeconds = baseDelay x.job.attemptCount .noJitter
  | _ => true

/-- The executable test of the delays is right. -/
theorem recordsResults_of_checksDelays (s : State) (a : Action) (h : checksDelays s a = true) :
    recordsResults .noJitter s a := by
  unfold recordsResults
  split
  · rename_i i op
    intro x hx
    cases op with
    | fail args =>
      have hjitter : retryJitter x.job.attemptCount .noJitter = 0 := mul_zero _
      have hdraw : |(0 : ℚ)| ≤ retryJitter x.job.attemptCount .noJitter := by rw [hjitter, abs_zero]
      have hdelay : args.retryDelaySeconds = baseDelay x.job.attemptCount .noJitter := by
        simpa [checksDelays, hx] using h
      exact ⟨0, hdraw, hdelay.trans (calculateRetryDelaySeconds_of_retryJitter_eq_zero _ _ _ hjitter hdraw).symm⟩
    | _ => trivial
  · trivial

/-- A job fails at its first attempt and is claimed again two seconds later. -/
def retriedRun : List Action :=
  claimedRun ++ transaction 2 (.call 0 (.fail ⟨true, false, 2, 0, none, none, none, none⟩)) 2 ++
    .tick 2000000 :: transaction 3 (.claimLoop ⟨"v", ["mail"], 1, 60, 10⟩) 10

/-- A job that has failed once, with a delay of two seconds. -/
theorem claims_when_due_retriedRun : ∃ s, runChecked step checksDelays (State.init 0) retriedRun = some s ∧
    ((jobLog s.log 0).map fun op => (op.now, op.event.isClaim, op.event.setsDue)) =
      [(0, false, true), (0, true, false), (0, false, true), (2000000, true, false)] ∧
    ClaimsWhenDue .noJitter s := by
  have hrun : (runChecked step checksDelays (State.init 0) retriedRun).map
      (fun s => (jobLog s.log 0).map fun op => (op.now, op.event.isClaim, op.event.setsDue)) =
        some [(0, false, true), (0, true, false), (0, false, true), (2000000, true, false)] := by
    decide +kernel
  obtain ⟨s, hs, hlog⟩ := Option.map_eq_some_iff.mp hrun
  exact ⟨s, hs, hlog, claims_when_due (reachesUnder_of_runChecked recordsResults_of_checksDelays hs)⟩

end PgRelay
