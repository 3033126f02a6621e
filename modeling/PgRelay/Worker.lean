import PgRelay.ExecuteJob

/-!
# The worker

`run` claims jobs in rounds until it is asked to stop, and starts a task of `_execute_job` for each of
them. Then it ends the purge task and shuts the tasks in flight down: it waits for them as long as the
grace period lasts, cancels those that are left, once and all together, and waits for these.

All tasks of a worker and all other sessions change the jobs in one database. A task takes its steps
with the row of its job as it is at that moment. The statements of a claim round are one step here, like
the calls of the repository in `_execute_job`; in the transaction model the claim takes effect with the
commit of its round. Time is not modelled: a sleep and the grace period end at any moment.
-/

namespace PgRelay

/-! ## The runner -/

/-- The settings that the runner reads. -/
structure WorkerSettings where
  workerConcurrency : ℕ
  workerBatchSize : ℕ

/-- Where `run` stands, once the worker has been registered. -/
inductive RunnerPc
  /-- At the condition of `_claim_loop`. -/
  | looping
  /-- In a round, before the free slots are counted. -/
  | recovering
  | claiming (batchSize : ℕ)
  /-- `_wait_for_one_inflight`. -/
  | waitingForOne (tasks : List ℕ)
  | sleeping
  /-- `_await_cancelled(purge_task)`. -/
  | stoppingPurge
  /-- `asyncio.wait` in `_shutdown_inflight`. -/
  | grace (tasks : List ℕ)
  /-- The loop over `_await_cancelled` at its end. -/
  | awaiting (tasks : List ℕ)
  | returned

/-- A worker: its runner, the tasks of `_execute_job` that it has started so far, `_inflight` as the
places of tasks in this list, and the jobs of the database. -/
structure Worker where
  pc : RunnerPc
  stopping : Bool
  runs : List (Execution × JobRun)
  inflight : List ℕ
  jobs : JobId → Option JobEntry

/-- A worker at its first round, before the first job has been enqueued. -/
def Worker.init : Worker := ⟨.looping, false, [], [], fun _ => none⟩

/-- The task of a place is done. -/
def Worker.isDone (s : Worker) (i : ℕ) : Bool := s.runs[i]?.any fun run => run.2.pc.isDone

/-- The worker by whom an operation is called. -/
def JobEvent.worker : JobEvent → Option WorkerId
  | .claimed x _ | .extended x _ | .returned x | .completed x _ | .failed x _ => some x.worker
  | .inserted _ _ | .recovered _ | .cancelled _ | .unlinked _ | .deleted _ _ => none

/-- What `claim_jobs` does to the jobs, row by row. -/
inductive Claims (worker : WorkerId) : (JobId → Option JobEntry) → List Execution → (JobId → Option JobEntry) → Prop
  | nil {jobs} : Claims worker jobs [] jobs
  | cons {jobs jobs' x xs t now leaseSeconds after} (hworker : x.worker = worker)
      (hacts : JobActs ⟨t, now, .claimed x leaseSeconds⟩ (jobs x.job.id) (some after))
      (hrest : Claims worker (Function.update jobs x.job.id (some after)) xs jobs') :
      Claims worker jobs (x :: xs) jobs'

/-- The runner after a round: it has started a task for each claimed job. -/
def Worker.spawn (settings : WorkerSettings) (s : Worker) (xs : List Execution)
    (jobs : JobId → Option JobEntry) : Worker :=
  let inflight := s.inflight ++ List.range' s.runs.length xs.length
  { s with
    pc := if settings.workerConcurrency ≤ inflight.length then
        if inflight = [] then .looping else .waitingForOne inflight
      else if xs = [] then .sleeping
      else .looping
    runs := s.runs ++ xs.map fun x => (x, JobRun.init ⟨x.job, []⟩)
    inflight := inflight
    jobs := jobs }

/-- `_shutdown_inflight` after its first wait: it forgets the tasks that are done and cancels the
others. -/
def Worker.cancelPending (s : Worker) (tasks : List ℕ) : Worker :=
  let pending := tasks.filter fun i => !s.isDone i
  { s with
    pc := .awaiting pending
    runs := s.runs.mapIdx fun i run =>
      if i ∈ pending then (run.1, { run.2.cancel with shutdown := true }) else run
    inflight := s.inflight.filter fun i => decide (i ∉ tasks) || decide (i ∈ pending) }

/-- Who takes a step. -/
inductive WorkerAction
  | runner
  | claim (xs : List Execution)
  | cancel
  | task (i : ℕ)
  | others

/-- The steps of a worker and of the other sessions, in which no operation of the database fails but
those of claim rounds. -/
inductive Worker.Step (codecs : Codecs) (settings : WorkerSettings) (worker : WorkerId) (s : Worker) :
    WorkerAction → Worker → Prop
  | requestStop : Step codecs settings worker s .others { s with stopping := true }
  | beginRound (hpc : s.pc = .looping) (hgo : s.stopping = false) :
      Step codecs settings worker s .runner { s with pc := .recovering }
  | countSlots (hpc : s.pc = .recovering) : Step codecs settings worker s .runner
      { s with pc := .claiming (min settings.workerBatchSize (settings.workerConcurrency - s.inflight.length)) }
  | claim {batchSize xs jobs} (hpc : s.pc = .claiming batchSize) (hlength : xs.length ≤ batchSize)
      (hclaims : Claims worker s.jobs xs jobs) :
      Step codecs settings worker s (.claim xs) (s.spawn settings xs jobs)
  | roundFails (hpc : s.pc = .recovering ∨ ∃ batchSize, s.pc = .claiming batchSize) :
      Step codecs settings worker s .runner { s with pc := .sleeping }
  | oneDone {tasks i} (hpc : s.pc = .waitingForOne tasks) (hi : i ∈ tasks) (hdone : s.isDone i = true) :
      Step codecs settings worker s .runner { s with pc := .looping }
  | wake (hpc : s.pc = .sleeping) : Step codecs settings worker s .runner { s with pc := .looping }
  | leave (hpc : s.pc = .looping) (hstop : s.stopping = true) :
      Step codecs settings worker s .runner { s with pc := .stoppingPurge }
  | purgeEnded (hpc : s.pc = .stoppingPurge) : Step codecs settings worker s .runner
      { s with pc := if s.inflight = [] then .returned else .grace s.inflight }
  -- The event loop starts tasks in the order of their creation, so all of them have been started when
  -- the runner goes on after a wait.
  | graceOver {tasks} (hpc : s.pc = .grace tasks)
      (hstarted : ∀ i ∈ tasks, ∀ run, s.runs[i]? = some run → run.2.pc ≠ .created) :
      Step codecs settings worker s .cancel (s.cancelPending tasks)
  | awaited {tasks} (hpc : s.pc = .awaiting tasks) (hdone : ∀ i ∈ tasks, s.isDone i = true) :
      Step codecs settings worker s .runner { s with pc := .returned }
  | inflightDone {i} (hdone : s.isDone i = true) :
      Step codecs settings worker s .runner { s with inflight := s.inflight.erase i }
  | task {i x run run'} (hrun : s.runs[i]? = some (x, run))
      (hstep : { run with entry := s.jobs x.job.id }.Step codecs x .tasks run') :
      Step codecs settings worker s (.task i) { s with
        runs := s.runs.set i (x, run')
        jobs := Function.update s.jobs x.job.id run'.entry }
  | other {op after} (hacts : JobActs op (s.jobs op.event.jobId) after) (hother : op.event.worker ≠ some worker) :
      Step codecs settings worker s .others { s with jobs := Function.update s.jobs op.event.jobId after }

/-- The states of a worker that are reached by steps that all meet a condition on the state before. -/
def Worker.ReachedUnder (codecs : Codecs) (settings : WorkerSettings) (worker : WorkerId)
    (ok : Worker → WorkerAction → Prop) : Worker → Prop :=
  Relation.ReflTransGen (fun s s' => ∃ a, ok s a ∧ Worker.Step codecs settings worker s a s') Worker.init

/-- The operation gives the job back or records a result of it. -/
def JobEvent.isResult : JobEvent → Bool
  | .returned _ | .completed _ _ | .failed _ _ => true
  | _ => false

/-- The transitions that a task has made: the effective calls of `complete_job`, `fail_job` and
`return_leased_job_to_pending`. -/
def JobRun.results (run : JobRun) : List LogEntry := run.log.filter fun op => op.event.isResult

end PgRelay
