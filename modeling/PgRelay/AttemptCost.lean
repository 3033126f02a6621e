import PgRelay.ExecuteJob

/-!
# What an execution costs

An execution that ends costs an attempt if its result is recorded: `complete_job` or `fail_job` adds an
attempt row and leaves the counter that the claim has raised. A cancelled `_execute_job` gives the job
back instead and takes the attempt back with it. This is meant for a shutdown, but a `CancelledError`
that a handler raises itself takes the same way.
-/

namespace PgRelay

open RowStore

variable {codecs : Codecs} {x : Execution} {start : JobEntry} {s s' : JobRun} {mover : Mover}

/-! ## Endings that become results -/

/-- The endings that `_execute_job` has a result for: nothing is raised, or an `Exception`, or the
cancellation by which the timeout of the job has ended it. -/
def Ending.Caught (ending : Ending) : Prop :=
  ∀ exc ∈ ending.reply.exception, exc.cls.isException = true ∨
    exc.cls = .cancelledError ∧ ending.expired = true ∧ ending.cancelling = false

/-- A timeout needs a `CancelledError` after the deadline that nobody else has asked for. -/
theorem Ending.timedOut_iff {ending : Ending} {exc : PyException} : ending.timedOut exc = true ↔
    exc.cls = .cancelledError ∧ ending.expired = true ∧ ending.cancelling = false := by
  simp only [Ending.timedOut, Bool.and_eq_true, Bool.not_eq_true', decide_eq_true_eq]
  tauto

/-- What a request raises has a result exactly if it is an `Exception`. -/
theorem httpExcept_caught (exc : PyException) (durationMs : ℕ) :
    (∃ result, catchException (httpExcept exc durationMs) = .ok result) ↔ exc.cls.isException = true := by
  cases hcls : exc.cls <;> simp [httpExcept, catchException, hcls, ExceptionClass.isException]

/-- What a handler raises has a result exactly if it is an `Exception`. -/
theorem handlerExecute_caught (exc : PyException) (durationMs : ℕ) :
    (∃ result, catchException (handlerExecute (.raised exc) durationMs) = .ok result) ↔
      exc.cls.isException = true := by
  cases hcls : exc.cls <;> simp [handlerExecute, catchException, hcls, ExceptionClass.isException]

/-- An execution has a result exactly if its ending is caught. -/
theorem Ending.executionResult_iff (codecs : Codecs) (ending : Ending) (durationMs : ℕ) :
    (∃ result, executionResult codecs ending.behaviour durationMs = .ok result) ↔ ending.Caught := by
  unfold executionResult Ending.behaviour Ending.Caught
  cases ending.reply with
  | http reply =>
    cases reply with
    | response status encoding chunks =>
      simp only [dispatchJob, httpExecute, Reply.exception]
      cases hpreview : readResponsePreview codecs encoding chunks with
      | ok preview => simp [catchException]
      | error exc => simpa using (httpExcept_caught exc durationMs).mpr (codecs.raises _ _ _ hpreview)
    | raised exc =>
      simp only [Reply.exception, Option.mem_some_iff, forall_eq', ← Ending.timedOut_iff]
      cases htimedOut : ending.timedOut exc with
      | true => simp [dispatchJob, catchException]
      | false => simpa [dispatchJob, httpExecute] using httpExcept_caught exc durationMs
  | handler reply =>
    cases reply with
    | unregistered => simp [dispatchJob, handlerExecute, catchException, Reply.exception]
    | returned => simp [dispatchJob, handlerExecute, catchException, Reply.exception]
    | raised exc =>
      simp only [Reply.exception, Option.mem_some_iff, forall_eq', ← Ending.timedOut_iff]
      cases htimedOut : ending.timedOut exc with
      | true => simp [dispatchJob, handlerExecute, catchException, timeoutError]
      | false => simpa [dispatchJob] using handlerExecute_caught exc durationMs

/-! ## What the job keeps of a run -/

/-- The operation records a result of the execution. -/
def JobEvent.Records (x : Execution) (event : JobEvent) : Prop :=
  (∃ args, event = .completed x args) ∨ ∃ args, event = .failed x args

/-- The execution has cost an attempt: a call has added its attempt row and left the counter as the
claim has set it, and no call has given the job back. -/
def CostsAttempt (x : Execution) (start : JobEntry) (log : List LogEntry) : Prop :=
  (∃ pre op post before after, log = pre ++ op :: post ∧ jobDynamics.Evolves pre (some start) (some before) ∧
    JobActs op (some before) (some after) ∧ op.event.Records x ∧ after.row.attemptCount = x.job.attemptCount ∧
    ∃ a, after.attempts = before.attempts ++ [a] ∧ a.attemptNumber = x.job.attemptCount) ∧
  ∀ op ∈ log, op.event ≠ .returned x

/-- The execution has given the job back, or recorded nothing. -/
def CostsNothing (x : Execution) (log : List LogEntry) : Prop :=
  (∃ op ∈ log, op.event = .returned x) ∨ ∀ op ∈ log, ¬ op.event.Records x

/-- An operation that neither records a result of the execution nor gives its job back. -/
def Quiet (x : Execution) (op : LogEntry) : Prop := op.event ≠ .returned x ∧ ¬ op.event.Records x

/-- The operations of others are quiet. -/
theorem quiet_of_caller {op : LogEntry} (h : op.event.caller ≠ some x) : Quiet x op := by
  refine ⟨fun hevent => h (by rw [hevent]; rfl), ?_⟩
  rintro (⟨args, hevent⟩ | ⟨args, hevent⟩) <;> exact h (by rw [hevent]; rfl)

/-- An execution that costs nothing does not cost an attempt. -/
theorem CostsNothing.not_costsAttempt {log : List LogEntry} (h : CostsNothing x log) :
    ¬ CostsAttempt x start log := by
  rintro ⟨⟨pre, op, post, before, after, rfl, -, -, hrecords, -⟩, hkept⟩
  rcases h with ⟨op', hop', hreturned⟩ | hsilent
  · exact hkept op' hop' hreturned
  · exact hsilent op (by simp) hrecords

/-- What others do later does not take the cost back. -/
theorem CostsAttempt.append {log : List LogEntry} {op : LogEntry} (h : CostsAttempt x start log)
    (hquiet : Quiet x op) : CostsAttempt x start (log ++ [op]) := by
  obtain ⟨⟨pre, op', post, before, after, rfl, hrest⟩, hkept⟩ := h
  refine ⟨⟨pre, op', post ++ [op], before, after, by simp, hrest⟩, fun c hc => ?_⟩
  rcases List.mem_append.mp hc with hmem | hmem
  · exact hkept c hmem
  · rw [List.mem_singleton.mp hmem]
    exact hquiet.1

/-- What others do later costs the execution nothing. -/
theorem CostsNothing.append {log : List LogEntry} {op : LogEntry} (h : CostsNothing x log)
    (hquiet : Quiet x op) : CostsNothing x (log ++ [op]) := by
  rcases h with ⟨op', hop', hreturned⟩ | hsilent
  · exact .inl ⟨op', List.mem_append_left _ hop', hreturned⟩
  · refine .inr fun c hc => ?_
    rcases List.mem_append.mp hc with hmem | hmem
    · exact hsilent c hmem
    · rw [List.mem_singleton.mp hmem]
      exact hquiet.2

/-- The run still holds the lease of its claim. -/
structure Holds (x : Execution) (start : JobEntry) (log : List LogEntry) (entry : JobEntry) : Prop where
  owned : OwnedBy x.worker entry.row
  count : entry.row.attemptCount = x.job.attemptCount
  evolves : jobDynamics.Evolves log (some start) (some entry)
  quiet : ∀ op ∈ log, Quiet x op

/-- Nobody changes the counter of a job that stays with its worker. -/
theorem JobActs.count_of_owned {op : LogEntry} {before after : JobEntry} {worker : WorkerId}
    (hacts : JobActs op (some before) (some after)) (hbefore : OwnedBy worker before.row)
    (hafter : OwnedBy worker after.row) : after.row.attemptCount = before.row.attemptCount := by
  cases hacts with
  | claimed hclaim hx => exact absurd (hclaim.1.symm.trans hbefore.2) (by decide)
  | extended howned => rfl
  | unlinked => rfl
  | returned howned => exact absurd hafter.2 (by simp [returnToPending])
  | completed howned => exact absurd hafter.2 (by simp [completeJob, completeUpdate])
  | @failed t now y args =>
    have hstatus := hafter.2
    cases hretry : shouldRetry y.job args <;> simp [failJob, failUpdate, hretry] at hstatus
  | recovered hexpired =>
    have hstatus := hafter.2
    simp only [recoverExpiredLease, recoverUpdate] at hstatus
    split_ifs at hstatus
  | cancelled hpending => exact absurd (hpending.symm.trans hbefore.2) (by decide)

/-- A quiet operation that leaves the job to its worker leaves the run its lease. -/
theorem Holds.step {log : List LogEntry} {op : LogEntry} {entry after : JobEntry}
    (h : Holds x start log entry) (hacts : JobActs op (some entry) (some after))
    (howned : OwnedBy x.worker after.row) (hquiet : Quiet x op) :
    Holds x start (log ++ [op]) after where
  owned := howned
  count := (hacts.count_of_owned h.owned howned).trans h.count
  evolves := h.evolves.snoc hacts
  quiet c hc := by
    rcases List.mem_append.mp hc with hmem | hmem
    · exact h.quiet c hmem
    · rw [List.mem_singleton.mp hmem]
      exact hquiet

/-! ## Runs that nothing disturbs -/

/-- No shutdown, no lost lease and no failure of the database. -/
structure JobRun.Undisturbed (s : JobRun) : Prop where
  shutdown : s.shutdown = false
  leaseLost : s.leaseLost = false
  database : s.databaseFailed = false

/-- The dispatched job has ended with a result, or with an exception that passes `_execute_job`. -/
def EndedWith (codecs : Codecs) (dispatch : DispatchState)
    (outcome : Except PyException ExecutorResult) : Prop :=
  ∃ ending, dispatch = .ended ending ∧ executionResult codecs ending.behaviour ending.durationMs = outcome

/-- What is known at each place of `_execute_job`. -/
def Position (codecs : Codecs) (x : Execution) (start : JobEntry) (dispatch : DispatchState)
    (entry : Option JobEntry) (log : List LogEntry) : ExecutePc → Prop
  | .created | .awaitingResult => ∃ e, entry = some e ∧ Holds x start log e
  | .finishingHeartbeat result | .recording result =>
    EndedWith codecs dispatch (.ok result) ∧ ∃ e, entry = some e ∧ Holds x start log e
  | .stoppingHeartbeat | .returning =>
    (∃ exc, EndedWith codecs dispatch (.error exc)) ∧ ∃ e, entry = some e ∧ Holds x start log e
  | .recorded | .closing .finished | .done .finished =>
    (∃ result, EndedWith codecs dispatch (.ok result)) ∧ CostsAttempt x start log
  | .closing _ | .done _ => (∃ exc, EndedWith codecs dispatch (.error exc)) ∧ CostsNothing x log

/-- The invariant of the runs that nothing disturbs: nothing is cancelled but the heartbeat, and that
only once the dispatched job has ended. -/
structure OnTrack (codecs : Codecs) (x : Execution) (start : JobEntry) (s : JobRun) : Prop where
  calm : s.cancelled = false
  dispatch : s.dispatch.isCancelling = false
  heartbeat : s.pc.isOpen = true → s.heartbeat.hasFailed = false
  waiting : s.pc = .created ∨ s.pc = .awaitingResult →
    s.heartbeatCancelled = false ∧ s.heartbeat.wasCancelled = false
  position : Position codecs x start s.dispatch s.entry s.log s.pc

/-- An open run holds the lease of its claim. -/
theorem Position.holds {dispatch : DispatchState} {entry : Option JobEntry} {log : List LogEntry}
    {pc : ExecutePc} (h : Position codecs x start dispatch entry log pc) (hopen : pc.isOpen = true) :
    ∃ e, entry = some e ∧ Holds x start log e := by
  cases pc with
  | created | awaitingResult => exact h
  | finishingHeartbeat | recording | stoppingHeartbeat | returning => exact h.2
  | recorded | closing | done => cases hopen

/-- A quiet operation after which an open run still holds its lease changes nothing else. -/
theorem Position.append {dispatch : DispatchState} {entry after : Option JobEntry}
    {log : List LogEntry} {op : LogEntry} {pc : ExecutePc}
    (h : Position codecs x start dispatch entry log pc) (hquiet : Quiet x op)
    (hheld : pc.isOpen = true → ∃ e, after = some e ∧ Holds x start (log ++ [op]) e) :
    Position codecs x start dispatch after (log ++ [op]) pc := by
  cases pc with
  | created | awaitingResult => exact hheld rfl
  | finishingHeartbeat | recording | stoppingHeartbeat | returning => exact ⟨h.1, hheld rfl⟩
  | recorded => exact ⟨h.1, h.2.append hquiet⟩
  | closing exit | done exit =>
    cases exit with
    | finished => exact ⟨h.1, CostsAttempt.append h.2 hquiet⟩
    | cancelled | raised => exact ⟨h.1, CostsNothing.append h.2 hquiet⟩

/-- While the dispatched job runs, `_execute_job` waits for it. -/
theorem Position.waiting {dispatch : DispatchState} {entry : Option JobEntry} {log : List LogEntry}
    {pc : ExecutePc} (h : Position codecs x start dispatch entry log pc)
    (hrunning : ∀ ending, dispatch ≠ .ended ending) :
    pc = .created ∨ pc = .awaitingResult := by
  have hended : ∀ outcome, ¬ EndedWith codecs dispatch outcome :=
    fun outcome houtcome => houtcome.elim fun ending h => hrunning ending h.1
  cases pc with
  | created => exact .inl rfl
  | awaitingResult => exact .inr rfl
  | finishingHeartbeat | recording => exact absurd h.1 (hended _)
  | stoppingHeartbeat | returning | recorded =>
    obtain ⟨⟨_, houtcome⟩, -⟩ := h
    exact absurd houtcome (hended _)
  | closing exit | done exit =>
    cases exit <;>
    · obtain ⟨⟨_, houtcome⟩, -⟩ := h
      exact absurd houtcome (hended _)

/-- What is known before the end of the heartbeat is known after it. -/
theorem Position.afterHeartbeat {dispatch : DispatchState} {entry : Option JobEntry}
    {log : List LogEntry} {pc next : ExecutePc} (h : Position codecs x start dispatch entry log pc)
    (hnext : pc.afterHeartbeat = some next) :
    Position codecs x start dispatch entry log next := by
  cases pc with
  | finishingHeartbeat | stoppingHeartbeat =>
    cases hnext
    exact h
  | closing exit =>
    cases hnext
    cases exit <;> exact h
  | _ => cases hnext

/-- After the wait for its heartbeat an execution is open only if it was before, and does not begin again. -/
theorem ExecutePc.afterHeartbeat_eq_some {pc next : ExecutePc}
    (hnext : pc.afterHeartbeat = some next) :
    (next.isOpen = true → pc.isOpen = true) ∧ next ≠ .created ∧ next ≠ .awaitingResult := by
  cases pc <;> cases hnext <;> simp [ExecutePc.isOpen]

/-- A call by the owner changes the job as its statement says. -/
theorem JobRun.call_of_owned {entry : JobEntry} (hentry : s.entry = some entry)
    (howned : OwnedBy x.worker entry.row)
    (t : TxnId) (now : Timestamp) (op : CallOp) : s.call t now x op = ({ s with
      entry := (callChange t now x entry op).version
      log := s.log ++ [(callChange t now x entry op).event] }, true) := by
  simp [JobRun.call, hentry, howned]

/-- A heartbeat keeps the run on track. -/
theorem OnTrack.extend (h : OnTrack codecs x start s) (t : TxnId) (now : Timestamp)
    (leaseSeconds : Int) :
    OnTrack codecs x start { (s.call t now x (.extendLease leaseSeconds)).1 with
      heartbeat := .extended (s.call t now x (.extendLease leaseSeconds)).2 } := by
  have hquiet : Quiet x ⟨t, now, .extended x leaseSeconds⟩ := ⟨by simp, by simp [JobEvent.Records]⟩
  by_cases howned : ∃ entry, s.entry = some entry ∧ OwnedBy x.worker entry.row
  · obtain ⟨entry, hentry, howned⟩ := howned
    rw [JobRun.call_of_owned hentry howned]
    refine ⟨h.calm, h.dispatch, fun _ => rfl, fun hpc => ⟨(h.waiting hpc).1, rfl⟩, ?_⟩
    refine h.position.append hquiet fun hopen => ⟨_, rfl, ?_⟩
    obtain ⟨e, he, hheld⟩ := h.position.holds hopen
    obtain rfl : entry = e := Option.some.inj (hentry.symm.trans he)
    exact hheld.step (callChange_acts (.extendLease leaseSeconds) howned) howned hquiet
  · have hcall : s.call t now x (.extendLease leaseSeconds) = (s, false) := by
      unfold JobRun.call
      split
      · rfl
      case h_2 entry hentry => exact if_neg fun hrow => howned ⟨entry, hentry, hrow⟩
    have hclosed : s.pc.isOpen = false := by
      by_contra hopen
      obtain ⟨e, he, hheld⟩ := h.position.holds (Bool.eq_true_of_not_eq_false hopen)
      exact howned ⟨e, he, hheld.owned⟩
    rw [hcall]
    refine ⟨h.calm, h.dispatch, fun hopen => ?_, fun hpc => ?_, h.position⟩
    · cases hclosed.symm.trans hopen
    · rcases hpc with hpc | hpc <;> exact absurd (hclosed.symm.trans (congrArg ExecutePc.isOpen hpc)) (by decide)

/-- The call of `_record_result` makes the execution cost an attempt. -/
theorem Holds.record {log : List LogEntry} {entry : JobEntry} (h : Holds x start log entry)
    (t : TxnId) (now : Timestamp) {retryDelaySeconds : Int} {result : ExecutorResult} {op : CallOp}
    (hop : recordOp retryDelaySeconds result = some op) :
    CostsAttempt x start (log ++ [(callChange t now x entry op).event]) := by
  have hkept : op ≠ .returnToPending → ∀ c ∈ log ++ [(callChange t now x entry op).event], c.event ≠ .returned x := by
    intro hne c hc
    rcases List.mem_append.mp hc with hmem | hmem
    · exact (h.quiet c hmem).1
    · rw [List.mem_singleton.mp hmem]
      cases op <;> simp [callChange] at hne ⊢
  unfold recordOp at hop
  split_ifs at hop
  · obtain ⟨preview, -, hop⟩ := Option.bind_eq_some_iff.mp hop
    obtain rfl := Option.some.inj hop
    exact ⟨⟨log, _, [], entry, _, rfl, h.evolves, .completed h.owned, .inl ⟨_, rfl⟩, h.count, _, rfl, rfl⟩,
      hkept (by simp)⟩
  · obtain ⟨errorType, -, hop⟩ := Option.bind_eq_some_iff.mp hop
    obtain ⟨errorMessage, -, hop⟩ := Option.bind_eq_some_iff.mp hop
    obtain ⟨preview, -, hop⟩ := Option.bind_eq_some_iff.mp hop
    obtain rfl := Option.some.inj hop
    exact ⟨⟨log, _, [], entry, _, rfl, h.evolves, .failed h.owned, .inr ⟨_, rfl⟩, h.count, _, rfl, rfl⟩,
      hkept (by simp)⟩

/-- What follows the end of the dispatched job. -/
theorem OnTrack.dispatched (h : OnTrack codecs x start s) (hpc : s.pc = .awaitingResult)
    {ending : Ending} (hended : s.dispatch = .ended ending) :
    OnTrack codecs x start (s.afterDispatch codecs ending) := by
  have hheld := h.position.holds (by rw [hpc]; rfl)
  have hbeat := h.heartbeat (by rw [hpc]; rfl)
  unfold JobRun.afterDispatch
  split
  case h_1 result hresult =>
    have hendedWith : EndedWith codecs s.dispatch (.ok result) := ⟨ending, hended, hresult⟩
    unfold JobRun.finishHeartbeat
    split
    case h_1 outcome hdone =>
      have houtcome : outcome = .returned true := by
        obtain ⟨-, hcancelled⟩ := h.waiting (.inr hpc)
        rw [hdone] at hbeat hcancelled
        rcases outcome with (_ | _) | _ | _
        · cases hbeat
        · rfl
        · cases hcancelled
        · cases hbeat
      rw [if_pos houtcome]
      exact ⟨h.calm, h.dispatch, fun _ => hbeat, by simp, hendedWith, hheld⟩
    case h_2 => exact ⟨h.calm, h.dispatch, fun _ => hbeat, by simp [JobRun.cancelHeartbeat], hendedWith, hheld⟩
  case h_2 exc hresult =>
    have hendedWith : ∃ exc, EndedWith codecs s.dispatch (.error exc) := ⟨exc, ending, hended, hresult⟩
    split_ifs
    · exact ⟨h.calm, h.dispatch, fun _ => hbeat, by simp [JobRun.cancelHeartbeat], hendedWith, hheld⟩
    · obtain ⟨entry, -, hheld⟩ := hheld
      exact ⟨h.calm, h.dispatch, by simp [JobRun.cancelHeartbeat, ExecutePc.isOpen],
        by simp [JobRun.cancelHeartbeat], hendedWith,
        .inr fun op hop => (hheld.quiet op hop).2⟩

/-- Nothing disturbs the beginning of a run that nothing disturbs. -/
theorem JobRun.Undisturbed.of_step (hstep : s.Step codecs x mover s') (h : s'.Undisturbed) :
    s.Undisturbed := by
  cases hstep with
  | @dispatched ending hpc =>
    obtain ⟨next, stop, -, heq⟩ := JobRun.afterDispatch_eq hpc codecs ending
    rw [heq] at h
    exact ⟨h.shutdown, h.leaseLost, h.database⟩
  | @record t now retryDelaySeconds result op =>
    obtain ⟨entry, log, hcall⟩ := s.call_eq t now x op
    rw [hcall] at h
    exact ⟨h.shutdown, h.leaseLost, h.database⟩
  | giveBack t now =>
    obtain ⟨entry, log, hcall⟩ := s.call_eq t now x .returnToPending
    rw [hcall] at h
    exact ⟨h.shutdown, h.leaseLost, h.database⟩
  | extend t now leaseSeconds =>
    obtain ⟨entry, log, hcall⟩ := s.call_eq t now x (.extendLease leaseSeconds)
    rw [hcall] at h
    exact ⟨h.shutdown, h.leaseLost, h.database⟩
  | cancelled hpc =>
    obtain ⟨next, stop, -, heq⟩ := JobRun.raiseCancelled_eq hpc
    rw [heq] at h
    exact ⟨h.shutdown, h.leaseLost, h.database⟩
  | recordFails | giveBackFails | extendFails => cases h.database
  | shutdown => cases h.shutdown
  | other => exact ⟨h.shutdown, (Bool.or_eq_false_iff.mp h.leaseLost).1, h.database⟩
  | _ => exact ⟨h.shutdown, h.leaseLost, h.database⟩

/-- What others do to the job of an open run leaves it the lease, unless the lease is lost. -/
theorem OnTrack.other (h : OnTrack codecs x start s) {op : LogEntry} {after : Option JobEntry}
    (hacts : JobActs op s.entry after) (hother : op.event.caller ≠ some x)
    (hlease : (s.leaseLost || (s.pc.isOpen && !x.owns after)) = false) :
    Position codecs x start s.dispatch after (s.log ++ [op]) s.pc := by
  have hquiet := quiet_of_caller hother
  apply h.position.append hquiet
  intro hopen
  obtain ⟨entry, hentry, hheld⟩ := h.position.holds hopen
  have howns : x.owns after = true := by simpa [hopen] using (Bool.or_eq_false_iff.mp hlease).2
  obtain ⟨e, rfl, howned⟩ := Option.any_eq_true _ _ |>.mp howns
  rw [hentry] at hacts
  exact ⟨e, rfl, hheld.step hacts (of_decide_eq_true howned) hquiet⟩

/-- Every step that does not disturb a run keeps it on track. -/
theorem OnTrack.step (h : OnTrack codecs x start s) (hstep : s.Step codecs x mover s')
    (hs' : s'.Undisturbed) :
    OnTrack codecs x start s' := by
  cases hstep with
  | start hpc =>
    obtain ⟨hcalm, -⟩ := h.waiting (.inl hpc)
    refine ⟨h.calm, rfl, fun _ => rfl, fun _ => ⟨hcalm, rfl⟩, ?_⟩
    exact h.position.holds (by rw [hpc]; rfl)
  | dispatched hpc hended => exact h.dispatched hpc hended
  | heartbeatDone hnext =>
    obtain ⟨hopen, hcreated, hwaiting⟩ := ExecutePc.afterHeartbeat_eq_some hnext
    refine ⟨h.calm, h.dispatch, fun hnextOpen => h.heartbeat (hopen hnextOpen), fun hpc => ?_, ?_⟩
    · exact absurd hpc (not_or.mpr ⟨hcreated, hwaiting⟩)
    · exact h.position.afterHeartbeat hnext
  | @record t now retryDelaySeconds result op hpc hop =>
    have hposition := h.position
    rw [hpc] at hposition
    obtain ⟨hended, entry, hentry, hheld⟩ := hposition
    rw [JobRun.call_of_owned hentry hheld.owned]
    exact ⟨h.calm, h.dispatch, by simp [ExecutePc.isOpen], by simp, ⟨result, hended⟩, hheld.record t now hop⟩
  | recordFails | giveBackFails | extendFails => cases hs'.database
  | close hpc =>
    have hposition := h.position
    rw [hpc] at hposition
    exact ⟨h.calm, h.dispatch, by simp [JobRun.cancelHeartbeat, ExecutePc.isOpen],
      by simp [JobRun.cancelHeartbeat], hposition⟩
  | giveBack t now hpc =>
    have hposition := h.position
    rw [hpc] at hposition
    obtain ⟨hended, entry, hentry, hheld⟩ := hposition
    rw [JobRun.call_of_owned hentry hheld.owned]
    exact ⟨h.calm, h.dispatch, by simp [JobRun.cancelHeartbeat, ExecutePc.isOpen],
      by simp [JobRun.cancelHeartbeat], hended,
      .inl ⟨_, List.mem_append_right _ (List.mem_singleton_self _), rfl⟩⟩
  | cancelled hpc hcancelled => cases h.calm.symm.trans hcancelled
  | dispatchEnds hrunning =>
    have hwaiting := h.position.waiting (by simp [hrunning])
    refine ⟨h.calm, rfl, h.heartbeat, h.waiting, ?_⟩
    change Position codecs x start _ s.entry s.log s.pc
    have hposition := h.position
    rcases hwaiting with hpc | hpc <;> rw [hpc] at hposition ⊢ <;> exact hposition
  | extend t now leaseSeconds => exact h.extend t now leaseSeconds
  | beat | beatEnds | sleep | wake =>
    exact ⟨h.calm, h.dispatch, fun _ => rfl, fun hpc => ⟨(h.waiting hpc).1, rfl⟩, h.position⟩
  | leaseLost hbeat =>
    have hclosed : ¬ s.pc.isOpen = true := fun hopen => by simpa [hbeat, HeartbeatPc.hasFailed] using h.heartbeat hopen
    have hnotWaiting : ¬ (s.pc = .created ∨ s.pc = .awaitingResult) := by
      rintro (hpc | hpc) <;> exact hclosed (by rw [hpc]; rfl)
    have hended : s.dispatch.cancel = s.dispatch := by
      cases hdispatch : s.dispatch with
      | created | running => exact absurd (h.position.waiting (by simp [hdispatch])) hnotWaiting
      | ended => rfl
    rw [hended]
    exact ⟨h.calm, h.dispatch, fun hopen => absurd hopen hclosed, fun hpc => absurd hpc hnotWaiting, h.position⟩
  | beatCancelled hcancelled hrunning =>
    refine ⟨h.calm, h.dispatch, fun _ => rfl, fun hpc => ?_, h.position⟩
    cases (h.waiting hpc).1.symm.trans hcancelled
  | shutdown => cases hs'.shutdown
  | other hacts hother =>
    exact ⟨h.calm, h.dispatch, h.heartbeat, h.waiting, h.other hacts hother hs'.leaseLost⟩

/-- A run that nothing disturbs is on track. -/
theorem JobRun.Reached.onTrack (hstart : OwnedBy x.worker start.row)
    (hcount : start.row.attemptCount = x.job.attemptCount)
    (h : JobRun.Reached codecs x start s) (hs : s.Undisturbed) : OnTrack codecs x start s := by
  induction h with
  | refl =>
    refine ⟨rfl, rfl, fun _ => rfl, fun _ => ⟨rfl, rfl⟩, ?_⟩
    exact ⟨start, rfl, hstart, hcount, .nil _, by simp [JobRun.init]⟩
  | tail _ hlast ih =>
    obtain ⟨mover, hstep⟩ := hlast
    exact (ih (.of_step hstep hs)).step hstep hs

/-- The tasks of a run are created together. -/
theorem JobRun.Reached.spawned (h : JobRun.Reached codecs x start s) : Spawned s := by
  induction h with
  | refl => exact ⟨fun _ => rfl, fun _ => rfl⟩
  | tail _ hlast ih =>
    obtain ⟨mover, hstep⟩ := hlast
    exact ih.step hstep

/-- A run that is on track and at its end has cost an attempt exactly if the ending was caught. -/
theorem OnTrack.costsAttempt_iff_caught {ending : Ending} (h : OnTrack codecs x start s)
    (hended : s.dispatch = .ended ending)
    (hdone : s.pc.isDone = true) : CostsAttempt x start s.log ↔ ending.Caught := by
  have hposition := h.position
  rw [← ending.executionResult_iff codecs ending.durationMs]
  cases hpc : s.pc with
  | done exit =>
    rw [hpc, hended] at hposition
    cases exit with
    | finished =>
      obtain ⟨⟨result, ending', hending, hresult⟩, hcosts⟩ := hposition
      obtain rfl : ending = ending' := by simpa using hending
      exact iff_of_true hcosts ⟨result, hresult⟩
    | cancelled | raised =>
      obtain ⟨⟨exc, ending', hending, hresult⟩, hnothing⟩ := hposition
      obtain rfl : ending = ending' := by simpa using hending
      apply iff_of_false hnothing.not_costsAttempt
      rintro ⟨result, hok⟩
      cases hok.symm.trans hresult
  | _ => simp [hpc, ExecutePc.isDone] at hdone

/-- The claim that started an execution has given its worker the job. -/
theorem Reachable.owned_of_execution {s : State} (h : Reachable s) (hx : x ∈ s.executions) :
    OwnedBy x.worker x.job := by
  obtain ⟨now, leaseSeconds, row, -, -, hjob⟩ := h.claim_of_execution hx
  rw [hjob]
  exact ⟨rfl, rfl⟩

/-- A job is claimed at most as often as its attempts allow, not counting the executions that gave it
back. -/
theorem JobHistory.claims_le {id : JobId} {log : List LogEntry} {entry : JobEntry}
    (h : JobHistory id log (some entry)) :
    (claims log : Int) ≤ entry.row.maxAttempts + returns log := by
  have hcount := h.tally.count
  have hle := h.rowOk.count_le
  omega

/-- Every run of `_execute_job` comes to its end once the dispatched job has ended. If nothing disturbs
it, the execution has then cost an attempt exactly if its ending was caught, that is, unless the handler
or the request raised `CancelledError` or another `BaseException` that is no `Exception`, other than by
the timeout of the job. Each time a job is executed beyond its attempts, an execution gave it back. -/
theorem costsAttempt_iff {s₀ : State} (h₀ : Reachable s₀) (hx : x ∈ s₀.executions)
    (attempts : List AttemptRow) (h : JobRun.Reached codecs x ⟨x.job, attempts⟩ s) {ending : Ending}
    (hended : s.dispatch = .ended ending) (hs : s.Undisturbed) :
    s.Settles codecs x ∧ (s.pc.isDone = true → (CostsAttempt x ⟨x.job, attempts⟩ s.log ↔ ending.Caught)) ∧
      ∀ entry, s₀.jobs.get x.job.id = some entry →
        (claims (jobLog s₀.log x.job.id) : Int) ≤ entry.row.maxAttempts + returns (jobLog s₀.log x.job.id) := by
  refine ⟨JobRun.settles h.spawned hended, fun hdone => ?_, fun entry hentry => ?_⟩
  · exact (h.onTrack (h₀.owned_of_execution hx) rfl hs).costsAttempt_iff_caught hended hdone
  · exact (hentry ▸ h₀.jobHistory x.job.id : JobHistory x.job.id _ (some entry)).claims_le

/-- A run in which the dispatched job ends before the first heartbeat. -/
theorem reached_afterDispatch (codecs : Codecs) (start : JobEntry) (ending : Ending)
    (hkind : ending.reply.kind = x.job.kind) : JobRun.Reached codecs x start
      ({ JobRun.init start with
        pc := .awaitingResult
        dispatch := .ended ending
        heartbeat := .checking }.afterDispatch codecs ending) := by
  apply Relation.ReflTransGen.tail (.tail (.single ⟨_, .start rfl rfl⟩) ⟨_, .dispatchEnds rfl hkind (by simp)⟩)
  exact ⟨_, .dispatched rfl rfl rfl⟩

/-- A run in which the handler or the request raises `CancelledError` gives the job back. -/
theorem reached_givenBack (codecs : Codecs) (start : JobEntry) (ending : Ending)
    (howned : OwnedBy x.worker start.row)
    (hkind : ending.reply.kind = x.job.kind) {exc : PyException} (hcls : exc.cls = .cancelledError)
    (hresult : executionResult codecs ending.behaviour ending.durationMs = .error exc) :
    ∃ s, JobRun.Reached codecs x start s ∧ s.dispatch = .ended ending ∧ s.Undisturbed ∧ s.pc.isDone = true ∧
      CostsNothing x s.log := by
  have hreached := reached_afterDispatch codecs start ending hkind
  simp only [JobRun.afterDispatch, hresult, hcls, if_true] at hreached
  have hstopped := hreached.tail ⟨_, .beatCancelled rfl rfl⟩
  have hreturning := hstopped.tail ⟨_, .heartbeatDone rfl rfl rfl⟩
  have hreturned := hreturning.tail ⟨_, .giveBack 0 0 rfl⟩
  rw [JobRun.call_of_owned rfl howned] at hreturned
  have hdone := hreturned.tail ⟨_, .heartbeatDone rfl rfl rfl⟩
  exact ⟨_, hdone, rfl, ⟨rfl, rfl, rfl⟩, rfl, .inl ⟨_, List.mem_singleton_self _, rfl⟩⟩

/-- A run whose result the database accepts records it. -/
theorem reached_recorded (codecs : Codecs) (start : JobEntry) (ending : Ending)
    (howned : OwnedBy x.worker start.row)
    (hcount : 0 < x.job.attemptCount) (hkind : ending.reply.kind = x.job.kind)
    (hduration : ending.durationMs < 2147483648) {result : ExecutorResult}
    (hresult : executionResult codecs ending.behaviour ending.durationMs = .ok result)
    (hstorable : result.TextsStorable) :
    ∃ s, JobRun.Reached codecs x start s ∧ s.dispatch = .ended ending ∧ s.Undisturbed ∧ s.pc.isDone = true := by
  have hbounded := executionResult_bounded hduration hresult
  obtain ⟨op, hop⟩ := (recordOp_eq_some_iff hbounded).mpr hstorable
  obtain ⟨after, hversion, haccepted, -⟩ := recordOp_accepted 0 0 start hcount hbounded hop
  have haccept : ∀ s : JobRun, s.entry = some start → (s.call 0 0 x op).2 = true →
      ∀ entry ∈ (s.call 0 0 x op).1.entry, RecordAccepted entry := by
    intro s hentry _ entry hmem
    rw [JobRun.call_of_owned hentry howned] at hmem
    obtain rfl : after = entry := Option.some.inj (hversion.symm.trans hmem)
    exact haccepted
  have hreached := reached_afterDispatch codecs start ending hkind
  simp only [JobRun.afterDispatch, hresult, JobRun.finishHeartbeat] at hreached
  have hstopped := hreached.tail ⟨_, .beatCancelled rfl rfl⟩
  have hrecording := hstopped.tail ⟨_, .heartbeatDone rfl rfl rfl⟩
  have hrecorded := hrecording.tail ⟨_, .record 0 0 0 rfl hop (haccept _ rfl)⟩
  rw [JobRun.call_of_owned rfl howned] at hrecorded
  have hclosing := hrecorded.tail ⟨_, .close rfl rfl⟩
  have hdone := hclosing.tail ⟨_, .heartbeatDone rfl rfl rfl⟩
  exact ⟨_, hdone, rfl, ⟨rfl, rfl, rfl⟩, rfl⟩

/-- A handler job of the claimed run, with the execution that holds it. -/
theorem claimedRun_handler : ∃ x, x ∈ (stateAfter 0 claimedRun).executions ∧ x.job.kind = .handler := by
  have hcheck : ((stateAfter 0 claimedRun).executions[0]?.map fun x => x.job.kind) = some .handler := by
    decide +kernel
  obtain ⟨x, hx, hkind⟩ := Option.map_eq_some_iff.mp hcheck
  exact ⟨x, List.mem_of_getElem? hx, hkind⟩

/-- A claimed job whose handler returns costs its attempt. -/
theorem costsAttempt_iff_claimedRun : ∃ (x : Execution) (s : JobRun),
    x ∈ (stateAfter 0 claimedRun).executions ∧ s.pc.isDone = true ∧ CostsAttempt x ⟨x.job, []⟩ s.log := by
  obtain ⟨x, hx, hkind⟩ := claimedRun_handler
  have hreach := reachable_stateAfter 0 claimedRun
  have hstorable : (handlerResult .succeeded none none 5).TextsStorable :=
    ⟨by simp [handlerResult], by simp [handlerResult], by simp [handlerResult]⟩
  obtain ⟨s, hs, hended, hundisturbed, hdone⟩ :=
    reached_recorded utf8Codecs ⟨x.job, []⟩ ⟨.handler .returned, false, false, 5⟩
      (hreach.owned_of_execution hx) (hreach.attemptCount_pos hx) hkind.symm (by decide) rfl hstorable
  obtain ⟨-, hiff, -⟩ := costsAttempt_iff hreach hx [] hs hended hundisturbed
  exact ⟨x, s, hx, hdone, (hiff hdone).mpr (by simp [Ending.Caught, Reply.exception])⟩

/-- `asyncio.CancelledError()`. -/
def cancelledError : PyException where
  cls := .cancelledError
  typeName := PyText.ofString "CancelledError"
  message := []
  typeName_storable := storable_ofString (by decide)

/-- A handler raises `CancelledError`, and its execution costs nothing. -/
theorem not_costsAttempt_cancelledError :
    ¬ ∀ codecs s₀ x attempts s ending, Reachable s₀ → x ∈ s₀.executions →
    JobRun.Reached codecs x ⟨x.job, attempts⟩ s → s.dispatch = .ended ending → s.Undisturbed → s.pc.isDone = true →
    CostsAttempt x ⟨x.job, attempts⟩ s.log := by
  intro hall
  obtain ⟨x, hx, hkind⟩ := claimedRun_handler
  have hreach := reachable_stateAfter 0 claimedRun
  obtain ⟨s, hs, hended, hundisturbed, hdone, hnothing⟩ :=
    reached_givenBack utf8Codecs ⟨x.job, []⟩ ⟨.handler (.raised cancelledError), false, false, 5⟩
      (hreach.owned_of_execution hx) hkind.symm rfl rfl
  exact hnothing.not_costsAttempt (hall _ _ x [] s _ hreach hx hs hended hundisturbed hdone)

end PgRelay
