import PgRelay.ClaimLoop
import PgRelay.ApiAuth

/-!
# The sessions of a worker

Each session of a worker takes a connection from the pool of its engine, and waits if the pool is
exhausted. A worker opens sessions in the rounds of its claim loop, in its purge loop, and in the tasks of its
jobs: for the heartbeat of a lease, and to record a result or to give a job back. A task has one session at a
time, because it ends the heartbeat before it opens the session of its result. So the settings that
`validate_runtime` accepts have a connection for every session.
-/

namespace PgRelay

open PyText

/-! ## Sessions of a task -/

/-- The heartbeat is in its `async with session_factory()`. -/
def HeartbeatPc.sessions : HeartbeatPc → ℕ
  | .extending | .extended _ => 1
  | _ => 0

/-- `_record_result` or `_return_job_to_pending` is in its `async with session_factory()`. -/
def ExecutePc.sessions : ExecutePc → ℕ
  | .recording _ | .recorded | .returning => 1
  | _ => 0

/-- The open sessions of a task. -/
def JobRun.sessions (run : JobRun) : ℕ := run.heartbeat.sessions + run.pc.sessions

/-- The heartbeat has not begun or has ended. -/
def HeartbeatPc.isQuiet : HeartbeatPc → Bool
  | .created | .done _ => true
  | _ => false

/-- A task opens a session for its result only when its heartbeat has ended, and it is cancelled in the wait
for its heartbeat only when this has ended. -/
structure OneSession (run : JobRun) : Prop where
  quiet : run.pc = .created ∨ run.pc.isDone = true → run.heartbeat.isQuiet = true
  ended : run.pc.sessions ≠ 0 → run.heartbeat.isDone = true
  stopped : run.pc.afterHeartbeat ≠ none → run.cancelled = true → run.heartbeat.isDone = true

variable {run run' : JobRun} {codecs : Codecs} {x : Execution}

/-- A quiet heartbeat has no session. -/
theorem HeartbeatPc.sessions_of_isQuiet {beat : HeartbeatPc} (h : beat.isQuiet = true) : beat.sessions = 0 := by
  cases beat <;> simp_all [HeartbeatPc.isQuiet, HeartbeatPc.sessions]

/-- A heartbeat that has ended is quiet. -/
theorem HeartbeatPc.isQuiet_of_isDone {beat : HeartbeatPc} (h : beat.isDone = true) : beat.isQuiet = true := by
  cases beat <;> simp_all [HeartbeatPc.isQuiet, HeartbeatPc.isDone]

/-- A task has at most one session, and none when it is done. -/
theorem OneSession.sessions_le (h : OneSession run) : run.sessions ≤ if run.pc.isDone then 0 else 1 := by
  have hbeat : run.heartbeat.sessions ≤ 1 := by cases run.heartbeat <;> simp [HeartbeatPc.sessions]
  have hpc : run.pc.sessions ≤ 1 := by cases run.pc <;> simp [ExecutePc.sessions]
  unfold JobRun.sessions
  by_cases hopen : run.pc.sessions = 0
  · split_ifs with hdone
    · rw [hopen, HeartbeatPc.sessions_of_isQuiet (h.quiet (.inr hdone))]
    · omega
  · have hidle : run.heartbeat.sessions = 0 :=
      HeartbeatPc.sessions_of_isQuiet (HeartbeatPc.isQuiet_of_isDone (h.ended hopen))
    have hnot : run.pc.isDone = false := by
      cases hrun : run.pc <;> simp_all [ExecutePc.sessions, ExecutePc.isDone]
    rw [hnot]
    simp only [Bool.false_eq_true, if_false]
    omega

/-- A task begins without a session. -/
theorem oneSession_init (start : JobEntry) : OneSession (JobRun.init start) where
  quiet _ := rfl
  ended h := absurd rfl h
  stopped h := absurd rfl h

/-- A task that moves on to a point without a session keeps to the rule, if it has not been cancelled there. -/
theorem OneSession.of_calm (hpc : run.pc ≠ .created) (hdone : run.pc.isDone = false) (hsessions : run.pc.sessions = 0)
    (hcalm : run.pc.afterHeartbeat ≠ none → run.cancelled = true → run.heartbeat.isDone = true) : OneSession run where
  quiet h := by
    rcases h with h | h
    · exact absurd h hpc
    · rw [hdone] at h
      cases h
  ended h := absurd hsessions h
  stopped := hcalm

/-- A task whose heartbeat has ended keeps to the rule. -/
theorem OneSession.of_ended (h : run.heartbeat.isDone = true) : OneSession run :=
  ⟨fun _ => HeartbeatPc.isQuiet_of_isDone h, fun _ => h, fun _ _ => h⟩

/-- So does a task whose dispatched job has ended. -/
theorem OneSession.afterDispatch (hcalm : run.cancelled = false) (ending : Ending) :
    OneSession (run.afterDispatch codecs ending) := by
  have hclosing {next : ExecutePc} (hnext : next ≠ .created ∧ next.isDone = false ∧ next.sessions = 0) :
      OneSession (run.cancelHeartbeat next) :=
    .of_calm hnext.1 hnext.2.1 hnext.2.2 fun _ hcancelled => by
      rw [show (run.cancelHeartbeat next).cancelled = run.cancelled from rfl, hcalm] at hcancelled
      cases hcancelled
  unfold JobRun.afterDispatch
  split
  · rename_i result _
    unfold JobRun.finishHeartbeat
    split
    · rename_i outcome hbeat
      split_ifs
      · exact .of_ended (by simp [hbeat, HeartbeatPc.isDone])
      · exact hclosing ⟨by simp, rfl, rfl⟩
    · exact hclosing ⟨by simp, rfl, rfl⟩
  · split_ifs
    · exact hclosing ⟨by simp, rfl, rfl⟩
    · exact hclosing ⟨by simp, rfl, rfl⟩

/-- While the heartbeat goes on, nothing but the heartbeat has a session. -/
theorem OneSession.beating (h : OneSession run) (hbeat : run.heartbeat.isQuiet = false) (hpc : run'.pc = run.pc)
    (hcancelled : run'.cancelled = run.cancelled) : OneSession run' := by
  have hgoes : run.heartbeat.isDone ≠ true := fun hdone => by
    rw [HeartbeatPc.isQuiet_of_isDone hdone] at hbeat
    cases hbeat
  refine ⟨fun hends => ?_, fun hopen => ?_, fun hwaits hc => ?_⟩
  · rw [h.quiet (hpc ▸ hends)] at hbeat
    cases hbeat
  · exact absurd (h.ended (hpc ▸ hopen)) hgoes
  · exact absurd (h.stopped (hpc ▸ hwaits) (hcancelled ▸ hc)) hgoes

/-- A task in which a cancellation is raised keeps to the rule. -/
theorem OneSession.raiseCancelled (h : OneSession run) (hcancelled : run.cancelled = true) :
    OneSession run.raiseCancelled := by
  unfold JobRun.raiseCancelled
  cases hpc : run.pc with
  | created =>
    refine ⟨fun _ => h.quiet (.inl hpc), fun hopen => absurd rfl hopen, fun hwaits => absurd rfl hwaits⟩
  | awaitingResult => exact .of_calm (by simp [JobRun.cancelHeartbeat]) rfl rfl (by simp [JobRun.cancelHeartbeat])
  | recording result => exact .of_ended (h.ended (by simp [hpc, ExecutePc.sessions]))
  | recorded => exact .of_ended (h.ended (by simp [hpc, ExecutePc.sessions]))
  | returning => exact .of_ended (h.ended (by simp [hpc, ExecutePc.sessions]))
  | finishingHeartbeat result => exact .of_ended (h.stopped (by simp [hpc, ExecutePc.afterHeartbeat]) hcancelled)
  | stoppingHeartbeat => exact .of_ended (h.stopped (by simp [hpc, ExecutePc.afterHeartbeat]) hcancelled)
  | closing exit => exact .of_ended (h.stopped (by simp [hpc, ExecutePc.afterHeartbeat]) hcancelled)
  | done exit =>
    refine ⟨fun _ => h.quiet (.inr (by rw [hpc]; rfl)), fun hopen => absurd rfl hopen, fun hwaits => absurd rfl hwaits⟩

/-- Every step of a task keeps to the rule. -/
theorem OneSession.step (h : OneSession run) (hstep : run.Step codecs x .tasks run') : OneSession run' := by
  cases hstep with
  | start hpc hcalm => exact .of_calm (by simp) rfl rfl fun hwaits => absurd rfl hwaits
  | dispatched hpc hended hcalm => exact .afterDispatch hcalm _
  | heartbeatDone hnext hdone hcalm => exact .of_ended hdone
  | record t now retryDelaySeconds hpc hop haccepted =>
    obtain ⟨entry, log, heq⟩ := run.call_eq t now x _
    rw [heq]
    exact .of_ended (h.ended (by simp [hpc, ExecutePc.sessions]))
  | close hpc hcalm => exact .of_ended (h.ended (by simp [hpc, ExecutePc.sessions]))
  | giveBack t now hpc =>
    obtain ⟨entry, log, heq⟩ := run.call_eq t now x .returnToPending
    rw [heq]
    exact .of_ended (h.ended (by simp [hpc, ExecutePc.sessions]))
  | cancelled hpc hcancelled => exact h.raiseCancelled hcancelled
  | dispatchEnds hrunning hkind hcancelling => exact ⟨h.quiet, h.ended, h.stopped⟩
  | beat hbeat hcalm hrunning => exact h.beating (by rw [hbeat]; rfl) rfl rfl
  | beatEnds hbeat hcalm hended => exact .of_ended rfl
  | extend t now leaseSeconds hbeat =>
    obtain ⟨entry, log, heq⟩ := run.call_eq t now x (.extendLease leaseSeconds)
    refine h.beating (by rw [hbeat]; rfl) ?_ ?_ <;> rw [heq]
  | sleep hbeat hcalm => exact h.beating (by rw [hbeat]; rfl) rfl rfl
  | leaseLost hbeat hcalm => exact .of_ended rfl
  | wake hbeat hcalm => exact h.beating (by rw [hbeat]; rfl) rfl rfl
  | beatCancelled hcancelled hrunning => exact .of_ended rfl

/-- So does a cancellation from outside. -/
theorem OneSession.cancel (h : OneSession run) : OneSession { run.cancel with shutdown := true } := by
  obtain ⟨hpc, -, hbeat, -⟩ := run.cancel_keeps
  refine ⟨fun hends => ?_, fun hopen => ?_, fun hwaits hcancelled => ?_⟩
  · exact hbeat ▸ h.quiet (hpc ▸ hends)
  · exact hbeat ▸ h.ended (hpc ▸ hopen)
  · change run.cancel.heartbeat.isDone = true
    change run.cancel.cancelled = true at hcancelled
    rw [hbeat]
    have hwaits' : run.pc.afterHeartbeat ≠ none := hpc ▸ hwaits
    by_contra hgoes
    have hcalm : run.cancelled ≠ true := fun hc => hgoes (h.stopped hwaits' hc)
    -- A wait for a heartbeat that goes on passes the cancellation to the heartbeat.
    unfold JobRun.cancel at hcancelled
    cases hrun : run.pc <;> simp_all [ExecutePc.afterHeartbeat]

/-! ## Sessions of a worker -/

/-- A round of the claim loop has one session after the other: for the heartbeat of the worker, and for the
recovery and the claim. -/
def RunnerPc.sessions : RunnerPc → ℕ
  | .recovering | .claiming _ => 1
  | _ => 0

/-- Where `_purge_loop` stands. -/
inductive PurgeLoopPc
  | checking
  | purging
  | sleeping
  | ended
  deriving DecidableEq

/-- `_purge_loop` is in its `async with session_factory()`. -/
def PurgeLoopPc.sessions : PurgeLoopPc → ℕ
  | .purging => 1
  | _ => 0

/-- A worker process: its registration, the worker once it is registered, and the purge loop beside it. -/
structure WorkerProcess where
  registering : Bool
  worker : Worker
  purge : PurgeLoopPc

/-- The process when `run` has created the purge task. -/
def WorkerProcess.init : WorkerProcess := ⟨true, Worker.init, .checking⟩

/-- The steps of a worker process. `run` waits for the end of the purge task before it goes on with its
shutdown. -/
inductive WorkerProcess.Step (codecs : Codecs) (settings : WorkerSettings) (worker : WorkerId)
    (p : WorkerProcess) : WorkerProcess → Prop
  | registered (hpc : p.registering = true) : Step codecs settings worker p { p with registering := false }
  | worker {a w} (hpc : p.registering = false) (hstep : Worker.Step codecs settings worker p.worker a w)
      (hpurge : w.pc ≠ .stoppingPurge → p.worker.pc = .stoppingPurge → p.purge = .ended) :
      Step codecs settings worker p { p with worker := w }
  | beginPurge (hpc : p.purge = .checking) (hgo : p.worker.stopping = false) :
      Step codecs settings worker p { p with purge := .purging }
  | endPurge (hpc : p.purge = .purging) : Step codecs settings worker p { p with purge := .sleeping }
  | wakePurge (hpc : p.purge = .sleeping) : Step codecs settings worker p { p with purge := .checking }
  | leavePurge (hpc : p.purge = .checking) (hstop : p.worker.stopping = true) :
      Step codecs settings worker p { p with purge := .ended }
  | cancelPurge (hpc : p.worker.pc = .stoppingPurge) : Step codecs settings worker p { p with purge := .ended }

/-- The open sessions of a worker. -/
def Worker.sessions (w : Worker) : ℕ := (w.runs.map fun r => r.2.sessions).sum + w.pc.sessions

/-- The open sessions of a worker process. -/
def WorkerProcess.sessions (p : WorkerProcess) : ℕ :=
  (if p.registering then 1 else p.worker.sessions) + p.purge.sessions

/-- The states that a worker process reaches. -/
def WorkerProcess.Reached (codecs : Codecs) (settings : WorkerSettings) (worker : WorkerId) : WorkerProcess → Prop :=
  Relation.ReflTransGen (WorkerProcess.Step codecs settings worker) WorkerProcess.init

/-- `_claim_loop` with the settings; `worker_batch_size` is any. -/
def Settings.forWorker (settings : Settings) (workerBatchSize : ℕ) : WorkerSettings :=
  ⟨settings.workerConcurrency.val.toNat, workerBatchSize⟩

variable {settings : WorkerSettings} {worker : WorkerId} {w w' : Worker} {a : WorkerAction} {p : WorkerProcess}

/-- Every step of a worker keeps its tasks to the rule. -/
theorem oneSession_of_step (hw : ∀ r ∈ w.runs, OneSession r.2) (h : Worker.Step codecs settings worker w a w') :
    ∀ r ∈ w'.runs, OneSession r.2 := by
  cases h with
  | requestStop | beginRound | countSlots | roundFails | oneDone | wake | leave | purgeEnded | awaited |
    inflightDone | other => exact hw
  | @claim batchSize xs jobs =>
    intro r hr
    rcases List.mem_append.mp hr with hold | hnew
    · exact hw r hold
    · obtain ⟨x, -, rfl⟩ := List.mem_map.mp hnew
      exact oneSession_init _
  | @graceOver tasks =>
    intro r hr
    obtain ⟨i, hi⟩ := List.mem_iff_getElem?.mp hr
    obtain ⟨r', hr', rfl | rfl⟩ := cancelPending_cases hi
    · exact hw r (List.mem_of_getElem? hr')
    · exact (hw r' (List.mem_of_getElem? hr')).cancel
  | @task i x run run' hrun hstep =>
    intro r hr
    rcases List.mem_or_eq_of_mem_set hr with hold | rfl
    · exact hw r hold
    · have hbefore : OneSession run := hw (x, run) (List.mem_of_getElem? hrun)
      have hrow : OneSession { run with entry := w.jobs x.job.id } := ⟨hbefore.quiet, hbefore.ended, hbefore.stopped⟩
      exact hrow.step hstep

/-- Every task of a worker process keeps to the rule. -/
theorem oneSession_of_reached (h : WorkerProcess.Reached codecs settings worker p) :
    ∀ r ∈ p.worker.runs, OneSession r.2 := by
  induction h with
  | refl => exact fun r hr => absurd hr List.not_mem_nil
  | tail _ hlast ih =>
    cases hlast with
    | worker hpc hstep hpurge => exact oneSession_of_step ih hstep
    | registered | beginPurge | endPurge | wakePurge | leavePurge | cancelPurge => exact ih

/-- The worker of a process takes the steps of a worker. -/
theorem reached_of_process (h : WorkerProcess.Reached codecs settings worker p) :
    Worker.ReachedUnder codecs settings worker (fun _ _ => True) p.worker := by
  induction h with
  | refl => exact .refl
  | tail _ hlast ih =>
    cases hlast with
    | worker hpc hstep hpurge => exact ih.tail ⟨_, trivial, hstep⟩
    | registered | beginPurge | endPurge | wakePurge | leavePurge | cancelPurge => exact ih

/-- The tasks that are not done, counted in the list. -/
theorem length_unfinished (w : Worker) : w.unfinished.length = w.runs.countP fun r => !r.2.pc.isDone := by
  unfold Worker.unfinished Worker.isDone
  generalize w.runs = runs
  induction runs using List.reverseRecOn with
  | nil => rfl
  | append_singleton runs r ih =>
    rw [List.length_append, List.length_singleton, List.range_succ, List.filter_append, List.length_append,
      List.countP_append, ← ih]
    congr 1
    · refine congrArg List.length (List.filter_congr fun i hi => ?_)
      rw [List.getElem?_append_left (List.mem_range.mp hi)]
    · cases hdone : r.2.pc.isDone <;> simp [hdone]

/-- The tasks of a worker have no more sessions than the worker has unfinished tasks. -/
theorem sum_sessions_le (hw : ∀ r ∈ w.runs, OneSession r.2) :
    (w.runs.map fun r => r.2.sessions).sum ≤ w.unfinished.length := by
  rw [length_unfinished]
  generalize w.runs = runs at hw
  induction runs with
  | nil => exact Nat.le_refl 0
  | cons r runs ih =>
    have hone := (hw r List.mem_cons_self).sessions_le
    have hrest := ih fun r' hr' => hw r' (List.mem_cons_of_mem _ hr')
    rw [List.map_cons, List.sum_cons, List.countP_cons]
    cases hdone : r.2.pc.isDone <;> simp_all
    omega

/-- A worker process with settings that `validate_runtime` accepts never has more sessions than its pool has
connections, so none of them waits for a connection. -/
theorem sessions_within_pool {settings : Settings} {lower : StrLower} (hvalid : settings.validateRuntime lower = .ok ())
    {workerBatchSize : ℕ} (h : WorkerProcess.Reached codecs (settings.forWorker workerBatchSize) worker p) :
    (p.sessions : Int) ≤ settings.dbPoolSize.val + settings.dbMaxOverflow.val := by
  have hpool : settings.workerConcurrency.val + 2 ≤ settings.dbPoolSize.val + settings.dbMaxOverflow.val := by
    unfold Settings.validateRuntime at hvalid
    simp only at hvalid
    split_ifs at hvalid with htokens hdefault hhosts hsmall
    exact not_lt.mp hsmall
  have htasks : (p.worker.runs.map fun r => r.2.sessions).sum ≤ settings.workerConcurrency.val.toNat :=
    (sum_sessions_le (oneSession_of_reached h)).trans (worker_length_unfinished_le (reached_of_process h))
  have hrunner : p.worker.pc.sessions ≤ 1 := by cases p.worker.pc <;> simp [RunnerPc.sessions]
  have hpurge : p.purge.sessions ≤ 1 := by cases p.purge <;> simp [PurgeLoopPc.sessions]
  have hconcurrency := settings.workerConcurrency.property.1
  unfold WorkerProcess.sessions Worker.sessions
  split_ifs <;> omega

/-- A worker of a process takes a step; the purge loop does not hold it up before the shutdown. -/
theorem WorkerProcess.Reached.work {purge : PurgeLoopPc}
    (h : WorkerProcess.Reached codecs settings worker ⟨false, w, purge⟩) (hpc : w.pc ≠ .stoppingPurge)
    (hstep : Worker.Step codecs settings worker w a w') :
    WorkerProcess.Reached codecs settings worker ⟨false, w', purge⟩ :=
  h.tail (.worker rfl hstep fun _ hstopping => absurd hstopping hpc)

/-- Room for three jobs and for the sessions of the loops beside them. -/
def Settings.threeJobs : Settings :=
  { Settings.smallest with workerConcurrency := ⟨3, by decide⟩, dbPoolSize := ⟨5, by decide⟩ }

/-- A second handler job that has just been enqueued. -/
def laterEntry : JobEntry := ⟨insertJob 1 0 (handlerJob "mail" 2), []⟩

/-- Its claim, in the round of the first one. -/
def laterExecution : Execution := ⟨1, "w", claimUpdate 0 "w" 60 laterEntry.row⟩

/-- The handler of the first job returns. -/
theorem dispatchEnds_returned (h : run.dispatch = .running false) : run.Step utf8Codecs claimedExecution .tasks
    { run with dispatch := .ended ⟨.handler .returned, false, false, 5⟩ } :=
  .dispatchEnds h rfl nofun

/-- A worker that has claimed two jobs in one round, while its purge loop deletes a batch. -/
theorem reached_claimedBoth : ∃ jobs,
    WorkerProcess.Reached utf8Codecs (Settings.threeJobs.forWorker 2) "w" ⟨false,
      { Worker.init with
        runs := [(claimedExecution, JobRun.init ⟨claimedExecution.job, []⟩),
          (laterExecution, JobRun.init ⟨laterExecution.job, []⟩)]
        inflight := [0, 1]
        jobs := jobs }, .purging⟩ := by
  have hfirst : JobActs ⟨0, 0, .inserted 0 (handlerJob "mail" 2)⟩ none (some enqueuedEntry) := .inserted (by decide)
  have hlater : JobActs ⟨0, 0, .inserted 1 (handlerJob "mail" 2)⟩ none (some laterEntry) := .inserted (by decide)
  have hclaimsFirst : JobActs ⟨1, 0, .claimed claimedExecution 60⟩ (some enqueuedEntry)
      (some ⟨claimedExecution.job, []⟩) := .claimed (by decide) rfl
  have hclaimsLater : JobActs ⟨1, 0, .claimed laterExecution 60⟩ (some laterEntry)
      (some ⟨laterExecution.job, []⟩) := .claimed (by decide) rfl
  have hregistered : WorkerProcess.Reached utf8Codecs (Settings.threeJobs.forWorker 2) "w"
      ⟨false, Worker.init, .checking⟩ := .single (.registered rfl)
  have hpurging : WorkerProcess.Reached utf8Codecs (Settings.threeJobs.forWorker 2) "w"
      ⟨false, Worker.init, .purging⟩ := hregistered.tail (.beginPurge rfl rfl)
  have hone := hpurging.work (by rintro ⟨⟩) (.other hfirst (by simp [JobEvent.worker]))
  have htwo := hone.work (by rintro ⟨⟩) (.other hlater (by simp [JobEvent.worker]))
  have hround := htwo.work (by rintro ⟨⟩) (.beginRound rfl rfl)
  have hcounted := hround.work (by rintro ⟨⟩) (.countSlots rfl)
  have hclaimed := hcounted.work (by rintro ⟨⟩)
    (.claim rfl (by decide) (.cons rfl hclaimsFirst (.cons rfl hclaimsLater .nil)))
  exact ⟨_, hclaimed⟩

/-- The first job has returned and records its result, the second one extends its lease, the claim loop
recovers leases and the purge loop deletes a batch: four sessions, and the pool has five connections. -/
theorem sessions_within_pool_busyProcess : ∃ p,
    WorkerProcess.Reached utf8Codecs (Settings.threeJobs.forWorker 2) "w" p ∧ p.sessions = 4 ∧
      (p.sessions : Int) ≤ Settings.threeJobs.dbPoolSize.val + Settings.threeJobs.dbMaxOverflow.val := by
  have hvalid : Settings.threeJobs.validateRuntime StrLower.asciiOnly = .ok () := by
    simp [Settings.validateRuntime, Settings.threeJobs, Settings.smallest]
  obtain ⟨jobs, hclaimed⟩ := reached_claimedBoth
  have hfirst := hclaimed.work (by rintro ⟨⟩) (.task (i := 0) rfl (.start rfl rfl))
  have hlater := hfirst.work (by rintro ⟨⟩) (.task (i := 1) rfl (.start rfl rfl))
  have hextending := hlater.work (by rintro ⟨⟩) (.task (i := 1) rfl (.beat rfl rfl nofun))
  have hended := hextending.work (by rintro ⟨⟩) (.task (i := 0) rfl (dispatchEnds_returned rfl))
  have hbeat := hended.work (by rintro ⟨⟩) (.task (i := 0) rfl (.beatEnds rfl rfl rfl))
  have hrecording := hbeat.work (by rintro ⟨⟩) (.task (i := 0) rfl (.dispatched rfl rfl rfl))
  have hround := hrecording.work (by rintro ⟨⟩) (.beginRound rfl rfl)
  exact ⟨_, hround, rfl, sessions_within_pool hvalid hround⟩

end PgRelay
