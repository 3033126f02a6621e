import PgRelay.AttemptCost
import PgRelay.Worker

/-!
# Clean shutdown

Every lease of a worker is the business of a task of its own, which ends it by recording a result or by
giving the job back, whatever cancels it and when. A task that does not come to this leaves the job
leased to a worker that is gone: the shutdown may cancel it in the transaction that gives the job back,
which it is in already if the job itself has raised `CancelledError`, and the job may end with an
exception that `_execute_job` does not handle. And a task that is cancelled when its result is committed
gives the job back if the same worker has claimed it again meanwhile. Otherwise a worker that has
returned leaves no lease behind.
-/

namespace PgRelay

variable {codecs : Codecs} {settings : WorkerSettings} {worker : WorkerId} {x : Execution} {run run' : JobRun}
  {s s' : Worker}

/-! ## The lease of a job -/

/-- The job is leased to the worker. -/
def LeasedTo (worker : WorkerId) (row : Option JobEntry) : Prop :=
  ∃ entry, row = some entry ∧ OwnedBy worker entry.row

/-- A call has no effect, or finds the job leased to the worker of the execution. -/
theorem JobRun.call_cases (run : JobRun) (t : TxnId) (now : Timestamp) (x : Execution) (op : CallOp) :
    run.call t now x op = (run, false) ∧ ¬ LeasedTo x.worker run.entry ∨
      ∃ entry, run.entry = some entry ∧ OwnedBy x.worker entry.row ∧ run.call t now x op =
        ({ run with entry := (callChange t now x entry op).version,
                    log := run.log ++ [(callChange t now x entry op).event] }, true) := by
  unfold JobRun.call
  cases hentry : run.entry with
  | none =>
    refine .inl ⟨rfl, ?_⟩
    rintro ⟨entry, hget, -⟩
    cases hget
  | some entry =>
    by_cases howned : OwnedBy x.worker entry.row
    · exact .inr ⟨entry, rfl, howned, if_pos howned⟩
    · refine .inl ⟨if_neg howned, ?_⟩
      rintro ⟨entry', hget, howned'⟩
      obtain rfl := Option.some.inj hget
      exact howned howned'

/-- A result ends the lease. -/
theorem not_leasedTo_callChange (worker : WorkerId) (t : TxnId) (now : Timestamp) (x : Execution)
    (entry : JobEntry) (op : CallOp) (hop : ∀ leaseSeconds, op ≠ .extendLease leaseSeconds) :
    ¬ LeasedTo worker (callChange t now x entry op).version ∧
      (callChange t now x entry op).event.event.isResult = true := by
  cases op with
  | extendLease leaseSeconds => exact absurd rfl (hop leaseSeconds)
  | returnToPending =>
    refine ⟨?_, rfl⟩
    rintro ⟨after, hafter, howned⟩
    obtain rfl := Option.some.inj hafter
    cases howned.2
  | complete args =>
    refine ⟨?_, rfl⟩
    rintro ⟨after, hafter, howned⟩
    obtain rfl := Option.some.inj hafter
    cases howned.2
  | fail args =>
    refine ⟨?_, rfl⟩
    rintro ⟨after, hafter, howned⟩
    obtain rfl := Option.some.inj hafter
    cases howned.1

/-- Only a claim of the worker leases a job to it. -/
theorem JobActs.leasedTo {op : LogEntry} {before after : Option JobEntry} (h : JobActs op before after)
    (hop : ∀ x leaseSeconds, op.event = .claimed x leaseSeconds → x.worker ≠ worker)
    (hleased : LeasedTo worker after) : LeasedTo worker before := by
  obtain ⟨entry, rfl, howned⟩ := hleased
  cases h with
  | inserted => cases howned.2
  | claimed _ hx =>
    have hworker := howned.1
    rw [hx] at hworker
    exact absurd (Option.some.inj hworker) (hop _ _ rfl)
  | extended => exact ⟨_, rfl, howned⟩
  | returned => cases howned.2
  | completed => cases howned.2
  | failed => cases howned.1
  | recovered => cases howned.1
  | cancelled => cases howned.2
  | unlinked => exact ⟨_, rfl, howned⟩

/-! ## The steps of a task -/

/-- What a step of a task does to its job: nothing, a heartbeat that keeps the lease, or the one
transition that ends it. -/
inductive JobRun.Acts (x : Execution) (run run' : JobRun) : Prop
  | quiet (hentry : run'.entry = run.entry) (hresults : run'.results = run.results)
  | extend (hleased : LeasedTo x.worker run.entry) (hresults : run'.results = run.results)
  | result (hleased : LeasedTo x.worker run.entry) (hreleased : ¬ LeasedTo x.worker run'.entry)
      (hresults : run'.results.length = run.results.length + 1)
      (hpc : (∃ result, run.pc = .recording result) ∨ run.pc = .returning) (hafter : run'.pc.isOpen = false)

/-- A result is no heartbeat. -/
theorem recordOp_ne_extendLease {retryDelaySeconds : Int} {result : ExecutorResult} {op : CallOp}
    (h : recordOp retryDelaySeconds result = some op) (leaseSeconds : Int) : op ≠ .extendLease leaseSeconds := by
  rintro rfl
  unfold recordOp at h
  split_ifs at h <;> simp [Option.bind_eq_some_iff] at h

/-- Every step of a task does one of these to its job. -/
theorem JobRun.Step.acts (h : run.Step codecs x .tasks run') : run.Acts x run' := by
  cases h with
  | @dispatched ending hpc =>
    obtain ⟨next, stop, -, heq⟩ := JobRun.afterDispatch_eq hpc codecs ending
    rw [heq]
    exact .quiet rfl rfl
  | cancelled hpc =>
    obtain ⟨next, stop, -, heq⟩ := JobRun.raiseCancelled_eq hpc
    rw [heq]
    exact .quiet rfl rfl
  | @record t now retryDelaySeconds result op hpc hop =>
    rcases run.call_cases t now x op with ⟨hcall, -⟩ | ⟨entry, hentry, howned, hcall⟩
    · rw [hcall]
      exact .quiet rfl rfl
    · obtain ⟨hreleased, hresult⟩ := not_leasedTo_callChange x.worker t now x entry op (recordOp_ne_extendLease hop)
      rw [hcall]
      exact .result ⟨entry, hentry, howned⟩ hreleased (by simp [JobRun.results, hresult]) (.inl ⟨result, hpc⟩) rfl
  | giveBack t now hpc =>
    rcases run.call_cases t now x .returnToPending with ⟨hcall, -⟩ | ⟨entry, hentry, howned, hcall⟩
    · rw [hcall]
      exact .quiet rfl rfl
    · obtain ⟨hreleased, hresult⟩ := not_leasedTo_callChange x.worker t now x entry .returnToPending (by simp)
      rw [hcall]
      exact .result ⟨entry, hentry, howned⟩ hreleased
        (by simp [JobRun.results, JobRun.cancelHeartbeat, hresult]) (.inr hpc) rfl
  | extend t now leaseSeconds =>
    rcases run.call_cases t now x (.extendLease leaseSeconds) with ⟨hcall, -⟩ | ⟨entry, hentry, howned, hcall⟩
    · rw [hcall]
      exact .quiet rfl rfl
    · rw [hcall]
      exact .extend ⟨entry, hentry, howned⟩ (by simp [JobRun.results, callChange, JobEvent.isResult])
  | _ => exact .quiet rfl rfl

/-- A step of a task leaves the job leased only if it was. -/
theorem JobRun.Acts.leasedTo (h : run.Acts x run') (hleased : LeasedTo x.worker run'.entry) :
    LeasedTo x.worker run.entry := by
  cases h with
  | quiet hentry => rwa [hentry] at hleased
  | extend hbefore => exact hbefore
  | result _ hreleased => exact absurd hleased hreleased

/-- A task does not go back. -/
theorem JobRun.Step.rank_le {mover : Mover} (h : run.Step codecs x mover run') : run'.pc.rank ≤ run.pc.rank := by
  cases h.moves with
  | start hcreated hpc =>
    rw [hcreated, hpc]
    decide
  | main hrank => exact hrank.le
  | beat hpc | dispatch _ hpc | outside _ hpc => rw [hpc]

/-- A task that is done has no steps left. -/
theorem ExecutePc.isDone_iff (pc : ExecutePc) : pc.isDone = true ↔ pc.rank = 0 := by
  cases pc <;> simp [ExecutePc.isDone, ExecutePc.rank]

/-- A task that is done stays so. -/
theorem JobRun.Step.isDone {mover : Mover} (h : run.Step codecs x mover run') (hdone : run.pc.isDone = true) :
    run'.pc.isDone = true := by
  rw [ExecutePc.isDone_iff] at hdone ⊢
  exact Nat.le_zero.mp (hdone ▸ h.rank_le)

/-- The task does nothing more to its job. -/
def ExecutePc.isClosed : ExecutePc → Bool
  | .closing _ | .done _ => true
  | _ => false

/-- A task that has recorded its result has at most the wait for its heartbeat left. -/
theorem ExecutePc.isClosed_iff (pc : ExecutePc) : pc.isClosed = true ↔ pc.rank ≤ 1 := by
  cases pc <;> simp [ExecutePc.isClosed, ExecutePc.rank]

/-- A task that does nothing more to its job stays so. -/
theorem JobRun.Step.isClosed {mover : Mover} (h : run.Step codecs x mover run') (hclosed : run.pc.isClosed = true) :
    run'.pc.isClosed = true := by
  rw [ExecutePc.isClosed_iff] at hclosed ⊢
  exact h.rank_le.trans hclosed

/-- Nothing has been recorded or given back. -/
def ExecutePc.isUnrecorded : ExecutePc → Bool
  | .created | .awaitingResult | .finishingHeartbeat _ | .recording _ => true
  | _ => false

/-- A task that has not recorded its result is at one of the upper ranks. -/
theorem ExecutePc.isUnrecorded_iff (pc : ExecutePc) : pc.isUnrecorded = true ↔ 5 ≤ pc.rank := by
  cases pc <;> simp [ExecutePc.isUnrecorded, ExecutePc.rank]

/-- What holds of every task by itself: it has made no transition before it comes to its result, and
nobody has cancelled its heartbeat while it waits for the dispatched job. -/
structure RunOk (run : JobRun) : Prop where
  fresh : run.pc.isUnrecorded = true → run.results = []
  beating : 7 ≤ run.pc.rank → run.heartbeatCancelled = false ∧ run.heartbeat.wasCancelled = false

/-- A task that has not begun has made no transition, and nobody has cancelled its heartbeat. -/
theorem runOk_init (start : JobEntry) : RunOk (JobRun.init start) := ⟨fun _ => rfl, fun _ => ⟨rfl, rfl⟩⟩

/-- Every step of a task keeps it so. -/
theorem RunOk.step (h : RunOk run) (hstep : run.Step codecs x .tasks run') : RunOk run' := by
  have hrank := hstep.rank_le
  refine ⟨fun hpc => ?_, fun hpc => ?_⟩
  · have hbefore : run.results = [] := h.fresh (by rw [ExecutePc.isUnrecorded_iff] at hpc ⊢; omega)
    cases hstep.acts with
    | quiet _ hresults | extend _ hresults => rw [hresults, hbefore]
    | result _ _ _ _ hafter => cases hnext : run'.pc <;> simp_all [ExecutePc.isOpen, ExecutePc.isUnrecorded]
  · obtain ⟨hcalm, hbeat⟩ := h.beating (hpc.trans hrank)
    cases hstep with
    | start => exact ⟨hcalm, rfl⟩
    | @dispatched ending hwaiting =>
      obtain ⟨next, stop, hlt, heq⟩ := JobRun.afterDispatch_eq hwaiting codecs ending
      rw [heq] at hpc
      rw [hwaiting] at hlt
      exact absurd hlt (not_lt.mpr hpc)
    | heartbeatDone hnext =>
      have hlt := ExecutePc.rank_afterHeartbeat hnext
      cases hold : run.pc <;> rw [hold] at hnext hlt <;> cases hnext <;> simp_all [ExecutePc.rank]
    | cancelled =>
      cases hold : run.pc <;> simp [JobRun.raiseCancelled, JobRun.cancelHeartbeat, hold, ExecutePc.rank] at hpc
    | beatCancelled hcancelled => cases hcalm.symm.trans hcancelled
    | extend t now leaseSeconds =>
      obtain ⟨entry, log, hcall⟩ := run.call_eq t now x (.extendLease leaseSeconds)
      rw [hcall]
      exact ⟨hcalm, by cases (run.call t now x (.extendLease leaseSeconds)).2 <;> rfl⟩
    | @record t now _ _ op =>
      obtain ⟨entry, log, hcall⟩ := run.call_eq t now x op
      rw [hcall] at hpc
      simp [ExecutePc.rank] at hpc
    | giveBack t now => simp [JobRun.cancelHeartbeat, ExecutePc.rank] at hpc
    | close => simp [JobRun.cancelHeartbeat, ExecutePc.rank] at hpc
    | beatEnds | beat | sleep | leaseLost | wake => exact ⟨hcalm, rfl⟩
    | dispatchEnds => exact ⟨hcalm, hbeat⟩

/-! ## The task that holds a lease -/

/-- The task does not wait for a dispatched job that has ended with an exception which `_execute_job`
does not handle. -/
def JobRun.Handled (codecs : Codecs) (run : JobRun) : Prop :=
  ∀ ending exc, run.pc = .awaitingResult → run.dispatch = .ended ending →
    executionResult codecs ending.behaviour ending.durationMs = .error exc → exc.cls = .cancelledError

/-- A task that will end the lease of its job: it has neither recorded a result nor given the job back,
its heartbeat has not been told that the lease is lost, and no cancellation keeps it from its begin or
from giving the job back. -/
structure Holding (run : JobRun) : Prop where
  isOpen : run.pc.isOpen = true
  beating : run.heartbeat.hasFailed = false
  calm : run.cancelled = true → run.pc ≠ .created ∧ run.pc ≠ .returning

/-- A task that has not begun will end the lease of its job. -/
theorem holding_init (start : JobEntry) : Holding (JobRun.init start) := by
  refine ⟨rfl, rfl, fun h => ?_⟩
  cases h

/-- A dispatched job whose ending is handled leaves the task holding the lease. -/
theorem Holding.afterDispatch (h : Holding run) (hok : RunOk run) (hpc : run.pc = .awaitingResult)
    (hcalm : run.cancelled = false) {ending : Ending} (hended : run.dispatch = .ended ending)
    (hhandled : run.Handled codecs) : Holding (run.afterDispatch codecs ending) := by
  have hbeat := (hok.beating (by simp [hpc, ExecutePc.rank])).2
  have hfailed := h.beating
  unfold JobRun.afterDispatch
  cases hresult : executionResult codecs ending.behaviour ending.durationMs with
  | ok result =>
    simp only [JobRun.finishHeartbeat]
    cases hheartbeat : run.heartbeat with
    | done outcome =>
      rw [hheartbeat] at hbeat hfailed
      cases outcome with
      | returned owned =>
        cases owned with
        | true => exact ⟨rfl, rfl, by simp [hcalm]⟩
        | false => cases hfailed
      | cancelled => cases hbeat
      | raised => cases hfailed
    | _ => exact ⟨rfl, h.beating, by simp [JobRun.cancelHeartbeat]⟩
  | error exc =>
    simp only [hhandled ending exc hpc hended hresult, if_true]
    exact ⟨rfl, h.beating, by simp [JobRun.cancelHeartbeat]⟩

/-- A task that is cancelled goes on holding the lease. -/
theorem Holding.raiseCancelled (h : Holding run) (hcancelled : run.cancelled = true) :
    Holding run.raiseCancelled := by
  obtain ⟨hcreated, hreturning⟩ := h.calm hcancelled
  have hopen := h.isOpen
  unfold JobRun.raiseCancelled
  cases hpc : run.pc with
  | created => exact absurd hpc hcreated
  | returning => exact absurd hpc hreturning
  | recorded | closing | done =>
    rw [hpc] at hopen
    cases hopen
  | awaitingResult | recording | finishingHeartbeat | stoppingHeartbeat =>
    exact ⟨rfl, h.beating, by simp [JobRun.cancelHeartbeat]⟩

/-- A task that holds a lease goes on holding it until it ends it. -/
theorem Holding.step (h : Holding run) (hok : RunOk run) (hleased : LeasedTo x.worker run'.entry)
    (hhandled : run.Handled codecs) (hstep : run.Step codecs x .tasks run') : Holding run' := by
  have hacts := hstep.acts
  have hbefore := hacts.leasedTo hleased
  cases hstep with
  | start hpc hcalm => exact ⟨rfl, rfl, by simp [hcalm]⟩
  | dispatched hpc hended hcalm => exact h.afterDispatch hok hpc hcalm hended hhandled
  | heartbeatDone hnext hdone hcalm =>
    have hopen := h.isOpen
    refine ⟨?_, h.beating, by simp [hcalm]⟩
    cases hpc : run.pc <;> rw [hpc] at hnext hopen <;> cases hnext
    · rfl
    · rfl
    · cases hopen
  | cancelled _ hcancelled => exact h.raiseCancelled hcancelled
  | dispatchEnds => exact ⟨h.isOpen, h.beating, h.calm⟩
  | beatEnds | beat | sleep | wake | beatCancelled => exact ⟨h.isOpen, rfl, h.calm⟩
  | leaseLost hbeat =>
    have hfailed := h.beating
    rw [hbeat] at hfailed
    cases hfailed
  | close hpc =>
    have hopen := h.isOpen
    rw [hpc] at hopen
    cases hopen
  | extend t now leaseSeconds =>
    rcases run.call_cases t now x (.extendLease leaseSeconds) with ⟨-, hnot⟩ | ⟨entry, -, -, hcall⟩
    · exact absurd hbefore hnot
    · rw [hcall]
      exact ⟨h.isOpen, rfl, h.calm⟩
  | @record t now _ _ op _ hop =>
    rcases run.call_cases t now x op with ⟨-, hnot⟩ | ⟨entry, -, -, hcall⟩
    · exact absurd hbefore hnot
    · rw [hcall] at hleased
      exact absurd hleased (not_leasedTo_callChange x.worker t now x entry op (recordOp_ne_extendLease hop)).1
  | giveBack t now =>
    rcases run.call_cases t now x .returnToPending with ⟨-, hnot⟩ | ⟨entry, -, -, hcall⟩
    · exact absurd hbefore hnot
    · rw [hcall] at hleased
      exact absurd hleased (not_leasedTo_callChange x.worker t now x entry .returnToPending (by simp)).1

/-! ## The worker -/

/-- What a shutdown relies on: the worker claims no job again while a task that has recorded a result of
it may still give it back; the shutdown cancels no task that is giving back a job of the worker; and no
job of the worker ends with an exception that is not handled. -/
def Worker.Clean (codecs : Codecs) (worker : WorkerId) (s : Worker) : WorkerAction → Prop
  | .claim xs => ∀ x ∈ xs, ∀ run ∈ s.runs, run.1.job.id = x.job.id → run.2.results ≠ [] →
      run.2.pc.isClosed = true
  | .cancel => ∀ run ∈ s.runs, run.2.pc = .returning → ¬ LeasedTo worker (s.jobs run.1.job.id)
  | .task i => ∀ run, s.runs[i]? = some run → LeasedTo worker (s.jobs run.1.job.id) → run.2.Handled codecs
  | .runner | .others => True

/-- Which tasks may not be done in each phase of a shutdown. -/
def RunnerPc.Covers (runs : List (Execution × JobRun)) (inflight : List ℕ) : RunnerPc → Prop
  | .grace tasks => ∀ i ∈ inflight, i ∈ tasks
  | .awaiting tasks => ∀ (i : ℕ) (run : Execution × JobRun), runs[i]? = some run → run.2.pc.isDone = true ∨ i ∈ tasks
  | .returned => ∀ (i : ℕ) (run : Execution × JobRun), runs[i]? = some run → run.2.pc.isDone = true
  | _ => True

/-- The invariant of a worker: a task that has made its transition and may try another one finds its
job leased to somebody else or to nobody, and every job leased to the worker has a task that holds the
lease. -/
structure WorkerOk (worker : WorkerId) (s : Worker) : Prop where
  mine : ∀ run ∈ s.runs, run.1.worker = worker
  runs : ∀ run ∈ s.runs, RunOk run.2
  once : ∀ run ∈ s.runs, run.2.results.length ≤ 1
  recorded : ∀ run ∈ s.runs, run.2.results ≠ [] → run.2.pc.isClosed = false →
    ¬ LeasedTo worker (s.jobs run.1.job.id)
  held : ∀ id, LeasedTo worker (s.jobs id) → ∃ (i : ℕ) (run : Execution × JobRun),
    s.runs[i]? = some run ∧ run.1.job.id = id ∧ Holding run.2
  inflight : ∀ (i : ℕ) (run : Execution × JobRun), s.runs[i]? = some run →
    run.2.pc.isDone = true ∨ i ∈ s.inflight
  covers : s.pc.Covers s.runs s.inflight

/-- A worker without tasks has no leases. -/
theorem workerOk_init (worker : WorkerId) : WorkerOk worker Worker.init := by
  constructor <;> simp [Worker.init, RunnerPc.Covers, LeasedTo]

/-- A step that starts no task and leaves the jobs alone. -/
theorem WorkerOk.move {pc : RunnerPc} {stopping : Bool} {inflight : List ℕ} (h : WorkerOk worker s)
    (hinflight : ∀ (i : ℕ) (run : Execution × JobRun), s.runs[i]? = some run →
      run.2.pc.isDone = true ∨ i ∈ inflight)
    (hcovers : pc.Covers s.runs inflight) :
    WorkerOk worker { s with pc := pc, stopping := stopping, inflight := inflight } :=
  ⟨h.mine, h.runs, h.once, h.recorded, h.held, hinflight, hcovers⟩

/-- An update of one job that leases it to nobody new leases no job to anybody new. -/
theorem LeasedTo.of_update {jobs : JobId → Option JobEntry} {id id' : JobId} {after : Option JobEntry}
    (hleased : LeasedTo worker after → LeasedTo worker (jobs id))
    (hafter : LeasedTo worker (Function.update jobs id after id')) : LeasedTo worker (jobs id') := by
  by_cases hid : id' = id
  · subst hid
    exact hleased (by simpa using hafter)
  · simpa [hid] using hafter

/-- The operations of others keep the invariant. -/
theorem WorkerOk.other (h : WorkerOk worker s) {id : JobId} {after : Option JobEntry}
    (hleased : LeasedTo worker after → LeasedTo worker (s.jobs id)) :
    WorkerOk worker { s with jobs := Function.update s.jobs id after } := by
  refine ⟨h.mine, h.runs, h.once, fun run hrun hresults hdone hafter => ?_, fun id' hafter => ?_, h.inflight, h.covers⟩
  · exact h.recorded run hrun hresults hdone (hafter.of_update hleased)
  · exact h.held id' (hafter.of_update hleased)

/-- The tasks after one of them has taken a step. -/
theorem getElem?_set_cases {α : Type} {l : List α} {i j : ℕ} {a b : α} (h : (l.set i a)[j]? = some b) :
    j = i ∧ b = a ∨ j ≠ i ∧ l[j]? = some b := by
  rw [List.getElem?_set] at h
  split_ifs at h with hij hlt
  · exact .inl ⟨hij.symm, (Option.some.inj h).symm⟩
  · exact .inr ⟨Ne.symm hij, h⟩

/-- A task that goes on leaves none uncovered. -/
theorem RunnerPc.Covers.set {runs : List (Execution × JobRun)} {inflight : List ℕ} {pc : RunnerPc}
    (h : pc.Covers runs inflight) {i : ℕ} {run run' : Execution × JobRun} (hrun : runs[i]? = some run)
    (hdone : run.2.pc.isDone = true → run'.2.pc.isDone = true) : pc.Covers (runs.set i run') inflight := by
  cases pc with
  | awaiting tasks =>
    intro j r hr
    rcases getElem?_set_cases hr with ⟨rfl, rfl⟩ | ⟨-, hold⟩
    · exact (h j run hrun).imp_left hdone
    · exact h j r hold
  | returned =>
    intro j r hr
    rcases getElem?_set_cases hr with ⟨rfl, rfl⟩ | ⟨-, hold⟩
    · exact hdone (h j run hrun)
    · exact h j r hold
  | _ => exact h

/-- A step of a task makes at most one transition in all. -/
theorem WorkerOk.once_task (h : WorkerOk worker s) {i : ℕ} (hrun : s.runs[i]? = some (x, run))
    (hacts : { run with entry := s.jobs x.job.id }.Acts x run') : run'.results.length ≤ 1 := by
  have hmem := List.mem_of_getElem? hrun
  have hworker : x.worker = worker := h.mine _ hmem
  cases hacts with
  | quiet _ hresults | extend _ hresults =>
    rw [hresults]
    exact h.once _ hmem
  | result hleased _ hresults hpc =>
    suffices hnone : run.results = [] by
      have hlength : run'.results.length = run.results.length + 1 := hresults
      simp [hlength, hnone]
    rcases hpc with ⟨result, hpc⟩ | hpc
    · change run.pc = _ at hpc
      exact (h.runs _ hmem).fresh (by simp [hpc, ExecutePc.isUnrecorded])
    · by_contra hsome
      change run.pc = _ at hpc
      rw [hworker] at hleased
      exact h.recorded _ hmem hsome (by simp [hpc, ExecutePc.isClosed]) hleased

/-- A task that has made its transition leaves its job leased to somebody else or to nobody. -/
theorem WorkerOk.recorded_task (h : WorkerOk worker s) {i : ℕ} (hrun : s.runs[i]? = some (x, run))
    (hstep : { run with entry := s.jobs x.job.id }.Step codecs x .tasks run') (hresults : run'.results ≠ [])
    (hopen : run'.pc.isClosed = false) : ¬ LeasedTo worker run'.entry := by
  intro hafter
  have hmem := List.mem_of_getElem? hrun
  have hworker : x.worker = worker := h.mine _ hmem
  have hacts := hstep.acts
  have hrunning : run.pc.isClosed = false := by
    by_contra hclosed
    cases hopen.symm.trans (hstep.isClosed (Bool.eq_true_of_not_eq_false hclosed))
  rw [← hworker] at hafter
  have hbefore : LeasedTo x.worker (s.jobs x.job.id) := hacts.leasedTo hafter
  rw [hworker] at hbefore
  cases hacts with
  | quiet _ hsame | extend _ hsame =>
    refine h.recorded _ hmem (fun hnone => hresults ?_) hrunning hbefore
    exact hsame.trans hnone
  | result _ hreleased => exact hreleased hafter

/-- A step of a task whose ending is handled keeps the invariant. -/
theorem WorkerOk.task (h : WorkerOk worker s) {i : ℕ} (hrun : s.runs[i]? = some (x, run))
    (hhandled : LeasedTo worker (s.jobs x.job.id) → run.Handled codecs)
    (hstep : { run with entry := s.jobs x.job.id }.Step codecs x .tasks run') :
    WorkerOk worker { s with
      runs := s.runs.set i (x, run')
      jobs := Function.update s.jobs x.job.id run'.entry } := by
  have hmem := List.mem_of_getElem? hrun
  have hworker : x.worker = worker := h.mine _ hmem
  have hacts := hstep.acts
  have hdone : run.pc.isDone = true → run'.pc.isDone = true := hstep.isDone
  have hleased (hafter : LeasedTo worker run'.entry) : LeasedTo worker (s.jobs x.job.id) := by
    rw [← hworker] at hafter ⊢
    exact hacts.leasedTo hafter
  have hcases {r : Execution × JobRun} (hr : r ∈ s.runs.set i (x, run')) : r ∈ s.runs ∨ r = (x, run') :=
    List.mem_or_eq_of_mem_set hr
  have hok : RunOk { run with entry := s.jobs x.job.id } := ⟨(h.runs _ hmem).fresh, (h.runs _ hmem).beating⟩
  refine ⟨fun r hr => ?_, fun r hr => ?_, fun r hr => ?_, fun r hr hresults hopen hafter => ?_, fun id hafter => ?_,
    fun j r hr => ?_, h.covers.set hrun hdone⟩
  · rcases hcases hr with hold | rfl
    · exact h.mine r hold
    · exact hworker
  · rcases hcases hr with hold | rfl
    · exact h.runs r hold
    · exact hok.step hstep
  · rcases hcases hr with hold | rfl
    · exact h.once r hold
    · exact h.once_task hrun hacts
  · rcases hcases hr with hold | rfl
    · exact h.recorded r hold hresults hopen (hafter.of_update hleased)
    · exact h.recorded_task hrun hstep hresults hopen (by simpa using hafter)
  · obtain ⟨j, r, hr, hid, hholding⟩ := h.held id (hafter.of_update hleased)
    by_cases hij : j = i
    · subst hij
      obtain rfl := Option.some.inj (hrun.symm.trans hr)
      obtain rfl : x.job.id = id := hid
      refine ⟨j, (x, run'), List.getElem?_set_self (List.getElem?_eq_some_iff.mp hrun).1, rfl, ?_⟩
      have hheld : Holding { run with entry := s.jobs x.job.id } :=
        ⟨hholding.isOpen, hholding.beating, hholding.calm⟩
      refine hheld.step hok ?_ (hhandled (hafter.of_update hleased)) hstep
      rw [hworker]
      simpa using hafter
    · exact ⟨j, r, by rw [List.getElem?_set_ne (Ne.symm hij)]; exact hr, hid, hholding⟩
  · rcases getElem?_set_cases hr with ⟨rfl, rfl⟩ | ⟨-, hold⟩
    · exact (h.inflight j _ hrun).imp_left hdone
    · exact h.inflight j r hold

/-- A claim leases to the worker only the jobs that it returns. -/
theorem Claims.leasedTo {jobs jobs' : JobId → Option JobEntry} {xs : List Execution} (h : Claims worker jobs xs jobs') :
    (∀ x ∈ xs, x.worker = worker) ∧
      ∀ id, LeasedTo worker (jobs' id) → LeasedTo worker (jobs id) ∨ ∃ x ∈ xs, x.job.id = id := by
  induction h with
  | nil => exact ⟨by simp, fun id hleased => .inl hleased⟩
  | @cons jobs jobs' x xs t now leaseSeconds after hworker hacts hrest ih =>
    obtain ⟨hworkers, hleases⟩ := ih
    refine ⟨fun y hy => ?_, fun id hleased => ?_⟩
    · rcases List.mem_cons.mp hy with rfl | hy
      · exact hworker
      · exact hworkers y hy
    · rcases hleases id hleased with hbefore | ⟨y, hy, hid⟩
      · by_cases hid : id = x.job.id
        · exact .inr ⟨x, List.mem_cons_self, hid.symm⟩
        · exact .inl (by simpa [hid] using hbefore)
      · exact .inr ⟨y, List.mem_cons_of_mem _ hy, hid⟩

/-- A claim of jobs that no task of the worker may still give back keeps the invariant. -/
theorem WorkerOk.claim (h : WorkerOk worker s) {xs : List Execution} {jobs : JobId → Option JobEntry}
    (hclaims : Claims worker s.jobs xs jobs) (hclean : s.Clean codecs worker (.claim xs)) :
    WorkerOk worker (s.spawn settings xs jobs) := by
  obtain ⟨hworkers, hleases⟩ := hclaims.leasedTo
  have hcases {r : Execution × JobRun} (hr : r ∈ (s.spawn settings xs jobs).runs) :
      r ∈ s.runs ∨ ∃ x ∈ xs, r = (x, JobRun.init ⟨x.job, []⟩) := by
    rcases List.mem_append.mp hr with hold | hnew
    · exact .inl hold
    · obtain ⟨x, hx, rfl⟩ := List.mem_map.mp hnew
      exact .inr ⟨x, hx, rfl⟩
  refine ⟨fun r hr => ?_, fun r hr => ?_, fun r hr => ?_, fun r hr hresults hopen hafter => ?_, fun id hafter => ?_,
    fun i r hr => ?_, ?_⟩
  · rcases hcases hr with hold | ⟨x, hx, rfl⟩
    · exact h.mine r hold
    · exact hworkers x hx
  · rcases hcases hr with hold | ⟨x, hx, rfl⟩
    · exact h.runs r hold
    · exact runOk_init _
  · rcases hcases hr with hold | ⟨x, hx, rfl⟩
    · exact h.once r hold
    · exact Nat.zero_le _
  · rcases hcases hr with hold | ⟨x, hx, rfl⟩
    · rcases hleases _ hafter with hbefore | ⟨x, hx, hid⟩
      · exact h.recorded r hold hresults hopen hbefore
      · cases hopen.symm.trans (hclean x hx r hold hid.symm hresults)
    · exact hresults rfl
  · rcases hleases id hafter with hbefore | ⟨x, hx, hid⟩
    · obtain ⟨i, r, hr, hid, hholding⟩ := h.held id hbefore
      exact ⟨i, r, (List.getElem?_append_left (List.getElem?_eq_some_iff.mp hr).1).trans hr, hid, hholding⟩
    · obtain ⟨i, hi⟩ := List.mem_iff_getElem?.mp
        (List.mem_append_right s.runs (List.mem_map.mpr ⟨x, hx, rfl⟩) :
          (x, JobRun.init ⟨x.job, []⟩) ∈ (s.spawn settings xs jobs).runs)
      exact ⟨i, _, hi, hid, holding_init _⟩
  · by_cases hi : i < s.runs.length
    · have hold : s.runs[i]? = some r := (List.getElem?_append_left hi).symm.trans hr
      exact (h.inflight i r hold).imp_right (List.mem_append_left _)
    · have hlt : i < s.runs.length + xs.length := by
        simpa [Worker.spawn] using (List.getElem?_eq_some_iff.mp hr).1
      exact .inr (List.mem_append_right _ (List.mem_range'_1.mpr ⟨Nat.le_of_not_lt hi, hlt⟩))
  · change RunnerPc.Covers _ _ (if _ then _ else _)
    split_ifs <;> trivial

/-- A cancellation leaves a task where it is, and the heartbeat alone while the task waits for the
dispatched job. -/
theorem JobRun.cancel_keeps (run : JobRun) : run.cancel.pc = run.pc ∧ run.cancel.log = run.log ∧
    run.cancel.heartbeat = run.heartbeat ∧
    (7 ≤ run.pc.rank → run.cancel.heartbeatCancelled = run.heartbeatCancelled) := by
  obtain ⟨cancelled, dispatch, stop, -, heq⟩ := run.cancel_eq
  refine ⟨by rw [heq], by rw [heq], by rw [heq], fun hrank => ?_⟩
  unfold JobRun.cancel
  cases hpc : run.pc <;> simp_all [ExecutePc.rank]
  cases run.dispatch <;> rfl

/-- A cancellation by the shutdown keeps it so, too. -/
theorem RunOk.cancel (h : RunOk run) : RunOk { run.cancel with shutdown := true } := by
  obtain ⟨hsame, hlog, hbeat, hcalm⟩ := run.cancel_keeps
  refine ⟨fun hpc => ?_, fun hrank => ?_⟩
  · change run.cancel.pc.isUnrecorded = true at hpc
    rw [hsame] at hpc
    simpa [JobRun.results, hlog] using h.fresh hpc
  · change 7 ≤ run.cancel.pc.rank at hrank
    rw [hsame] at hrank
    change run.cancel.heartbeatCancelled = false ∧ run.cancel.heartbeat.wasCancelled = false
    rw [hcalm hrank, hbeat]
    exact h.beating hrank

/-- A task that has been started and is not giving its job back still holds it when it is cancelled. -/
theorem Holding.cancel (h : Holding run) (hcreated : run.pc ≠ .created) (hreturning : run.pc ≠ .returning) :
    Holding { run.cancel with shutdown := true } := by
  obtain ⟨hsame, -, hbeat, -⟩ := run.cancel_keeps
  rw [← hsame] at hcreated hreturning
  refine ⟨?_, ?_, fun _ => ⟨hcreated, hreturning⟩⟩
  · change run.cancel.pc.isOpen = true
    rw [hsame]
    exact h.isOpen
  · change run.cancel.heartbeat.hasFailed = false
    rw [hbeat]
    exact h.beating

/-- Every task is what it was, or cancelled. -/
theorem cancelPending_cases {tasks : List ℕ} {i : ℕ} {r' : Execution × JobRun}
    (hr' : (s.cancelPending tasks).runs[i]? = some r') :
    ∃ r, s.runs[i]? = some r ∧ (r' = r ∨ r' = (r.1, { r.2.cancel with shutdown := true })) := by
  simp only [Worker.cancelPending, List.getElem?_mapIdx, Option.map_eq_some_iff] at hr'
  obtain ⟨r, hr, heq⟩ := hr'
  refine ⟨r, hr, ?_⟩
  split_ifs at heq with hmem
  · exact .inr heq.symm
  · exact .inl heq.symm

/-- The shutdown cancels tasks where they are. -/
theorem cancelPending_keeps {tasks : List ℕ} {i : ℕ} {r' : Execution × JobRun}
    (hr' : (s.cancelPending tasks).runs[i]? = some r') :
    ∃ r, s.runs[i]? = some r ∧ r'.1 = r.1 ∧ r'.2.pc = r.2.pc ∧ r'.2.results = r.2.results := by
  obtain ⟨r, hr, rfl | rfl⟩ := cancelPending_cases hr'
  · exact ⟨r', hr, rfl, rfl, rfl⟩
  · obtain ⟨hsame, hlog, -, -⟩ := r.2.cancel_keeps
    exact ⟨r, hr, rfl, hsame, by simp [JobRun.results, hlog]⟩

/-- When the grace period is over, every task that has not ended is among the cancelled ones. -/
theorem WorkerOk.pending (h : WorkerOk worker s) {tasks : List ℕ} (hpc : s.pc = .grace tasks) {i : ℕ}
    {r : Execution × JobRun} (hr : s.runs[i]? = some r) (hopen : r.2.pc.isDone = false) :
    i ∈ tasks.filter fun i => !s.isDone i := by
  have hcovers := h.covers
  rw [hpc] at hcovers
  have hflight := (h.inflight i r hr).resolve_left (by simp [hopen])
  exact List.mem_filter.mpr ⟨hcovers i hflight, by simp [Worker.isDone, hr, hopen]⟩

/-- A shutdown that cancels no task that is giving back a job of the worker keeps the invariant. -/
theorem WorkerOk.cancel (h : WorkerOk worker s) {tasks : List ℕ} (hpc : s.pc = .grace tasks)
    (hstarted : ∀ i ∈ tasks, ∀ run, s.runs[i]? = some run → run.2.pc ≠ .created)
    (hclean : s.Clean codecs worker .cancel) : WorkerOk worker (s.cancelPending tasks) := by
  refine ⟨fun r' hr' => ?_, fun r' hr' => ?_, fun r' hr' => ?_, fun r' hr' hresults hopen => ?_, fun id hleased => ?_,
    fun i r' hr' => ?_, fun i r' hr' => ?_⟩
  · obtain ⟨i, hi⟩ := List.mem_iff_getElem?.mp hr'
    obtain ⟨r, hr, hx, -, -⟩ := cancelPending_keeps hi
    rw [hx]
    exact h.mine r (List.mem_of_getElem? hr)
  · obtain ⟨i, hi⟩ := List.mem_iff_getElem?.mp hr'
    obtain ⟨r, hr, rfl | rfl⟩ := cancelPending_cases hi
    · exact h.runs r' (List.mem_of_getElem? hr)
    · exact (h.runs r (List.mem_of_getElem? hr)).cancel
  · obtain ⟨i, hi⟩ := List.mem_iff_getElem?.mp hr'
    obtain ⟨r, hr, -, -, hsame⟩ := cancelPending_keeps hi
    rw [hsame]
    exact h.once r (List.mem_of_getElem? hr)
  · obtain ⟨i, hi⟩ := List.mem_iff_getElem?.mp hr'
    obtain ⟨r, hr, hx, hsame, hlog⟩ := cancelPending_keeps hi
    rw [hx]
    rw [hlog] at hresults
    rw [hsame] at hopen
    exact h.recorded r (List.mem_of_getElem? hr) hresults hopen
  · obtain ⟨i, r, hr, hid, hholding⟩ := h.held id hleased
    have hopen : r.2.pc.isDone = false := by
      have hopen := hholding.isOpen
      cases hold : r.2.pc <;> simp_all [ExecutePc.isOpen, ExecutePc.isDone]
    have hmem := h.pending hpc hr hopen
    refine ⟨i, (r.1, { r.2.cancel with shutdown := true }), ?_, hid, hholding.cancel ?_ fun hreturning => ?_⟩
    · simp only [Worker.cancelPending, List.getElem?_mapIdx, hr, Option.map_some, if_pos hmem]
    · exact hstarted i (List.mem_filter.mp hmem).1 r hr
    · refine hclean r (List.mem_of_getElem? hr) hreturning ?_
      rw [hid]
      exact hleased
  · obtain ⟨r, hr, -, hsame, -⟩ := cancelPending_keeps hr'
    rw [hsame]
    cases hopen : r.2.pc.isDone with
    | true => exact .inl rfl
    | false =>
      have hflight := (h.inflight i r hr).resolve_left (by simp [hopen])
      exact .inr (List.mem_filter.mpr ⟨hflight, by simp [h.pending hpc hr hopen]⟩)
  · obtain ⟨r, hr, -, hsame, -⟩ := cancelPending_keeps hr'
    rw [hsame]
    cases hopen : r.2.pc.isDone with
    | true => exact .inl rfl
    | false => exact .inr (h.pending hpc hr hopen)

/-- Every step that meets the condition keeps the invariant. -/
theorem WorkerOk.step {a : WorkerAction} (h : WorkerOk worker s) (hclean : s.Clean codecs worker a)
    (hstep : Worker.Step codecs settings worker s a s') : WorkerOk worker s' := by
  cases hstep with
  | requestStop => exact h.move h.inflight h.covers
  | beginRound | countSlots | roundFails | oneDone | wake | leave => exact h.move h.inflight trivial
  | claim _ _ hclaims => exact h.claim hclaims hclean
  | purgeEnded =>
    refine h.move h.inflight ?_
    split_ifs with hempty
    · intro i r hr
      have hdone := h.inflight i r hr
      rw [hempty] at hdone
      exact hdone.resolve_right (List.not_mem_nil)
    · exact fun i hi => hi
  | graceOver hpc hstarted => exact h.cancel hpc hstarted hclean
  | @awaited tasks hpc hdone =>
    refine h.move h.inflight fun i r hr => ?_
    have hcovers := h.covers
    rw [hpc] at hcovers
    rcases hcovers i r hr with hended | hi
    · exact hended
    · simpa [Worker.isDone, hr] using hdone i hi
  | @inflightDone i hdone =>
    have hended {r : Execution × JobRun} (hr : s.runs[i]? = some r) : r.2.pc.isDone = true := by
      simpa [Worker.isDone, hr] using hdone
    refine h.move (fun j r hr => ?_) ?_
    · by_cases hij : j = i
      · subst hij
        exact .inl (hended hr)
      · exact (h.inflight j r hr).imp_right (List.mem_erase_of_ne hij).mpr
    · have hcovers := h.covers
      cases hpc : s.pc <;> rw [hpc] at hcovers
      case grace tasks => exact fun j hj => hcovers j (List.mem_of_mem_erase hj)
      all_goals exact hcovers
  | task hrun hstep => exact h.task hrun (hclean _ hrun) hstep
  | other hacts hother =>
    refine h.other (hacts.leasedTo fun x leaseSeconds hevent hworker => hother ?_)
    rw [hevent, ← hworker]
    rfl

/-- What a clean shutdown leaves: no task has made more than one transition, and when `run` has
returned, all tasks are done and no job is leased to the worker. -/
structure CleanShutdown (worker : WorkerId) (s : Worker) : Prop where
  once : ∀ run ∈ s.runs, run.2.results.length ≤ 1
  finished : s.pc = .returned → ∀ run ∈ s.runs, run.2.pc.isDone = true
  released : s.pc = .returned → ∀ id entry, s.jobs id = some entry → ¬ OwnedBy worker entry.row

/-- In every run of a worker in which it claims no job again while a task that has recorded a result of it
may still give it back, the shutdown cancels no task that is giving back a job of the worker, and no job
of the worker ends with an exception that is not handled, the shutdown is clean. -/
theorem clean_shutdown (h : Worker.ReachedUnder codecs settings worker (Worker.Clean codecs worker) s) :
    CleanShutdown worker s := by
  have hok : WorkerOk worker s := by
    induction h with
    | refl => exact workerOk_init worker
    | tail _ hlast ih =>
      obtain ⟨a, hclean, hstep⟩ := hlast
      exact ih.step hclean hstep
  have hfinished (hpc : s.pc = .returned) {i : ℕ} {r : Execution × JobRun} (hr : s.runs[i]? = some r) :
      r.2.pc.isDone = true := by
    have hcovers := hok.covers
    rw [hpc] at hcovers
    exact hcovers i r hr
  refine ⟨hok.once, fun hpc r hr => ?_, fun hpc id entry hget howned => ?_⟩
  · obtain ⟨i, hi⟩ := List.mem_iff_getElem?.mp hr
    exact hfinished hpc hi
  · obtain ⟨i, r, hr, -, hholding⟩ := hok.held id ⟨entry, hget, howned⟩
    have hdone := hfinished hpc hr
    have hopen := hholding.isOpen
    cases hold : r.2.pc <;> simp_all [ExecutePc.isOpen, ExecutePc.isDone]

/-- A handler job that has just been enqueued. -/
def enqueuedEntry : JobEntry := ⟨insertJob 0 0 (handlerJob "mail" 2), []⟩

/-- Its claim. -/
def claimedExecution : Execution := ⟨1, "w", claimUpdate 0 "w" 60 enqueuedEntry.row⟩

/-- The handler has raised `CancelledError`. -/
def cancelledEnding (cancelling : Bool) : Ending := ⟨.handler (.raised cancelledError), false, cancelling, 5⟩

/-- The task of a job that runs, or has raised `CancelledError`, takes a step. -/
theorem clean_task {i : ℕ} {r : Execution × JobRun} (hr : s.runs[i]? = some r)
    (hdispatch : ∀ ending, r.2.dispatch = .ended ending → ∃ cancelling, ending = cancelledEnding cancelling) :
    s.Clean utf8Codecs worker (.task i) := by
  intro r' hr' _ ending exc _ hended hresult
  obtain rfl := Option.some.inj (hr.symm.trans hr')
  obtain ⟨cancelling, rfl⟩ := hdispatch ending hended
  obtain rfl : cancelledError = exc := Except.error.inj hresult
  rfl

/-- A worker that has claimed the job and started its task. -/
theorem reached_started {ok : Worker → WorkerAction → Prop} (hok : ∀ s a, s.Clean utf8Codecs "w" a → ok s a) :
    Worker.ReachedUnder utf8Codecs ⟨2, 1⟩ "w" ok
      { Worker.init with
        runs := [(claimedExecution, { JobRun.init ⟨claimedExecution.job, []⟩ with
          pc := .awaitingResult, dispatch := .running false, heartbeat := .checking })]
        inflight := [0]
        jobs := Function.update (Function.update (Function.update (fun _ => none) 0 (some enqueuedEntry)) 0
          (some ⟨claimedExecution.job, []⟩)) 0 (some ⟨claimedExecution.job, []⟩) } := by
  have hinserts : JobActs ⟨0, 0, .inserted 0 (handlerJob "mail" 2)⟩ none (some enqueuedEntry) :=
    .inserted (by decide)
  have hclaims : JobActs ⟨1, 0, .claimed claimedExecution 60⟩ (some enqueuedEntry)
      (some ⟨claimedExecution.job, []⟩) :=
    .claimed (by decide) rfl
  have hinit : Worker.ReachedUnder utf8Codecs ⟨2, 1⟩ "w" ok Worker.init := .refl
  have henqueued := hinit.tail ⟨.others, hok _ _ trivial, .other hinserts (by simp [JobEvent.worker])⟩
  have hround := henqueued.tail ⟨.runner, hok _ _ trivial, .beginRound rfl rfl⟩
  have hcounted := hround.tail ⟨.runner, hok _ _ trivial, .countSlots rfl⟩
  have hclaimed := hcounted.tail ⟨.claim [claimedExecution], hok _ _ (by simp [Worker.Clean, Worker.init]),
    .claim rfl (by decide) (.cons rfl hclaims .nil)⟩
  exact hclaimed.tail ⟨.task 0, hok _ _ (clean_task rfl (by simp [JobRun.init])), .task rfl (.start rfl rfl)⟩

/-- The only task of a worker is not giving its job back. -/
theorem clean_cancel {r : Execution × JobRun} (hruns : s.runs = [r]) (hpc : r.2.pc ≠ .returning) :
    s.Clean codecs worker .cancel := by
  intro r' hr' hreturning
  rw [hruns] at hr'
  obtain rfl := List.mem_singleton.mp hr'
  exact absurd hreturning hpc

/-- The only task of a worker has been started. -/
theorem started_of_singleton {r : Execution × JobRun} (hruns : s.runs = [r]) (hpc : r.2.pc ≠ .created)
    {tasks : List ℕ} : ∀ i ∈ tasks, ∀ run, s.runs[i]? = some run → run.2.pc ≠ .created := by
  intro i _ r' hr'
  have hmem := List.mem_of_getElem? hr'
  rw [hruns] at hmem
  obtain rfl := List.mem_singleton.mp hmem
  exact hpc

/-- The handler raises `CancelledError`. -/
theorem dispatchEnds_cancelled {cancelling : Bool} (h : run.dispatch = .running cancelling) :
    run.Step utf8Codecs claimedExecution .tasks { run with dispatch := .ended (cancelledEnding cancelling) } :=
  .dispatchEnds h rfl id

/-- The shutdown cancels the running handler, and the task gives the job back. -/
theorem clean_shutdown_cancelledHandler : ∃ s,
    Worker.ReachedUnder utf8Codecs ⟨2, 1⟩ "w" (Worker.Clean utf8Codecs "w") s ∧ s.pc = .returned ∧
      s.runs.length = 1 ∧ CleanShutdown "w" s := by
  have hclean {cancelling : Bool} (ending : Ending)
      (h : DispatchState.ended (cancelledEnding cancelling) = .ended ending) :
      ∃ cancelling, ending = cancelledEnding cancelling :=
    ⟨cancelling, (DispatchState.ended.inj h).symm⟩
  have hstarted := reached_started fun _ _ h => h
  have hstop := hstarted.tail ⟨.others, trivial, .requestStop⟩
  have hleft := hstop.tail ⟨.runner, trivial, .leave rfl rfl⟩
  have hgrace := hleft.tail ⟨.runner, trivial, .purgeEnded rfl⟩
  have hcancelled := hgrace.tail ⟨.cancel, clean_cancel rfl nofun,
    .graceOver rfl (started_of_singleton rfl fun hpc => by cases hpc)⟩
  have hended := hcancelled.tail ⟨.task 0, clean_task rfl nofun,
    .task rfl (dispatchEnds_cancelled rfl)⟩
  have hstopping := hended.tail ⟨.task 0, clean_task rfl hclean, .task rfl (.dispatched rfl rfl rfl)⟩
  have hquiet := hstopping.tail ⟨.task 0, clean_task rfl hclean, .task rfl (.beatCancelled rfl rfl)⟩
  have hreturning := hquiet.tail ⟨.task 0, clean_task rfl hclean, .task rfl (.heartbeatDone rfl rfl rfl)⟩
  have hreturned := hreturning.tail ⟨.task 0, clean_task rfl hclean, .task rfl (.giveBack 2 0 rfl)⟩
  have hdone := hreturned.tail ⟨.task 0, clean_task rfl hclean, .task rfl (.heartbeatDone rfl rfl rfl)⟩
  have hend := hdone.tail ⟨.runner, trivial, .awaited rfl (by decide)⟩
  exact ⟨_, hend, rfl, rfl, clean_shutdown hend⟩

/-- The handler raises `CancelledError` itself, and the shutdown cancels its task while that gives the
job back. -/
theorem not_cleanShutdown_cancelledReturn : ¬ ∀ codecs settings worker s,
    Worker.ReachedUnder codecs settings worker (fun _ _ => True) s → CleanShutdown worker s := by
  intro hall
  have hstarted := reached_started fun _ _ _ => trivial
  have hended := hstarted.tail ⟨.task 0, trivial, .task rfl (dispatchEnds_cancelled rfl)⟩
  have hstopping := hended.tail ⟨.task 0, trivial, .task rfl (.dispatched rfl rfl rfl)⟩
  have hquiet := hstopping.tail ⟨.task 0, trivial, .task rfl (.beatCancelled rfl rfl)⟩
  have hreturning := hquiet.tail ⟨.task 0, trivial, .task rfl (.heartbeatDone rfl rfl rfl)⟩
  have hstop := hreturning.tail ⟨.others, trivial, .requestStop⟩
  have hleft := hstop.tail ⟨.runner, trivial, .leave rfl rfl⟩
  have hgrace := hleft.tail ⟨.runner, trivial, .purgeEnded rfl⟩
  have hcancelled := hgrace.tail ⟨.cancel, trivial,
    .graceOver rfl (started_of_singleton rfl fun hpc => by cases hpc)⟩
  have hraised := hcancelled.tail ⟨.task 0, trivial, .task rfl (.cancelled rfl rfl)⟩
  have hdone := hraised.tail ⟨.task 0, trivial, .task rfl (.heartbeatDone rfl rfl rfl)⟩
  have hend := hdone.tail ⟨.runner, trivial, .awaited rfl (by decide)⟩
  exact (hall _ _ _ _ hend).released rfl 0 ⟨claimedExecution.job, []⟩ rfl (by decide)

end PgRelay
