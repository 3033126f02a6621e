import PgRelay.CleanShutdown
import PgRelay.ClaimSchedule
import PgRelay.RowStore.Slots

/-!
# The claim loop

`_claim_loop` counts the free slots, claims at most so many jobs, commits, closes its session, and only
then starts the tasks of the claimed jobs. It gives control away at each await, and there tasks may end and
be forgotten, and the await may raise an exception or be cancelled. The model goes from one await to the
next.

The tasks that are not done never exceed the concurrency. The jobs of a round get their tasks in the same
step in which the session has been closed. The await of the close lies between the return of the commit and
this step: if it raises or is cancelled, the jobs stay leased without a task until their leases expire.
-/

namespace PgRelay

open RowStore

/-! ## The loop -/

/-- A task of `_execute_job`. -/
structure ExecuteTask where
  job : JobRow
  done : Bool

/-- What may come out of an await instead of its result. -/
inductive Interruption
  | exception
  | cancelled

/-- The await at which `_claim_loop` is. -/
inductive LoopPc
  /-- `_heartbeat_worker`. -/
  | heartbeat
  /-- The session is opened. -/
  | opening
  /-- `recovery.recover`. -/
  | recovering
  /-- `claim_jobs`. -/
  | claiming (batchSize : ℕ)
  /-- `session.commit`. -/
  | committing (jobs : List JobRow)
  /-- The session is closed, after its commit has returned. -/
  | closing (jobs : List JobRow)
  /-- The session is closed while an exception passes. -/
  | unwinding (why : Interruption)
  | sleeping
  /-- `_wait_for_one_inflight`. -/
  | waitingForOne (tasks : List ℕ)
  /-- The loop has ended or has been cancelled, and `run` shuts down. -/
  | left

/-- The loop, the tasks of `_execute_job` that it has created so far, and `_inflight`, the jobs of tasks by
the places of these. -/
structure ClaimLoop where
  pc : LoopPc
  stopping : Bool
  tasks : List ExecuteTask
  inflight : List (ℕ × JobRow)

/-- The loop at its first await. -/
def ClaimLoop.init : ClaimLoop := ⟨.heartbeat, false, [], []⟩

/-- The task of a place is done. -/
def ClaimLoop.isDone (s : ClaimLoop) (i : ℕ) : Bool := s.tasks[i]?.any ExecuteTask.done

/-- The tasks that are not done. -/
def ClaimLoop.unfinished (s : ClaimLoop) : List ℕ := (List.range s.tasks.length).filter fun i => !s.isDone i

/-- `while not self._stopping.is_set()`. -/
def ClaimLoop.again (s : ClaimLoop) : ClaimLoop := { s with pc := if s.stopping then .left else .heartbeat }

/-- A task is created for a job. -/
def ClaimLoop.startTask (s : ClaimLoop) (job : JobRow) : ClaimLoop :=
  { s with tasks := s.tasks ++ [⟨job, false⟩], inflight := s.inflight ++ [(s.tasks.length, job)] }

/-- The end of a round, after the tasks have been created. -/
def ClaimLoop.endRound (settings : WorkerSettings) (jobs : List JobRow) (s : ClaimLoop) : ClaimLoop :=
  if settings.workerConcurrency ≤ s.inflight.length then
    if s.inflight.isEmpty then s.again else { s with pc := .waitingForOne (s.inflight.map Prod.fst) }
  else if jobs.isEmpty then { s with pc := .sleeping }
  else s.again

/-- The free slots are counted, and the jobs claimed, if there are any. -/
def ClaimLoop.countSlots (settings : WorkerSettings) (s : ClaimLoop) : ClaimLoop :=
  let freeSlots := settings.workerConcurrency - s.inflight.length
  let batchSize := min settings.workerBatchSize freeSlots
  { s with pc := if 0 < batchSize then .claiming batchSize else .committing [] }

/-- What the loop awaits returns, and the loop runs on to its next await. -/
def ClaimLoop.proceed (settings : WorkerSettings) (s : ClaimLoop) : Option ClaimLoop :=
  match s.pc with
  | .heartbeat => some { s with pc := .opening }
  | .opening => some { s with pc := .recovering }
  | .recovering => some (s.countSlots settings)
  | .claiming _ => none
  | .committing jobs => some { s with pc := .closing jobs }
  | .closing jobs => some ((jobs.foldl ClaimLoop.startTask s).endRound settings jobs)
  | .unwinding .exception => some { s with pc := .sleeping }
  | .unwinding .cancelled => some { s with pc := .left }
  | .sleeping => some s.again
  | .waitingForOne tasks => if tasks.any s.isDone then some s.again else none
  | .left => none

/-- What the loop awaits raises an `Exception`. Within the session the session is closed first. -/
def ClaimLoop.raise (s : ClaimLoop) : Option ClaimLoop :=
  match s.pc with
  | .heartbeat | .opening | .closing _ | .unwinding _ => some { s with pc := .sleeping }
  | .recovering | .claiming _ | .committing _ => some { s with pc := .unwinding .exception }
  | .sleeping | .waitingForOne _ | .left => none

/-- The loop is cancelled at its await. -/
def ClaimLoop.cancel (s : ClaimLoop) : Option ClaimLoop :=
  match s.pc with
  | .recovering | .claiming _ | .committing _ => some { s with pc := .unwinding .cancelled }
  | .left => none
  | _ => some { s with pc := .left }

/-- What happens at an await. -/
inductive LoopAction
  | proceed
  /-- `claim_jobs` returns jobs. -/
  | claimed (jobs : List JobRow)
  | raise
  | cancel
  /-- A task ends. -/
  | finish (i : ℕ)
  /-- `_on_inflight_done` for a task that is done. -/
  | inflightDone (i : ℕ)
  | requestStop

/-- One action of the loop or of those beside it. -/
def ClaimLoop.step (settings : WorkerSettings) (s : ClaimLoop) : LoopAction → Option ClaimLoop
  | .proceed => s.proceed settings
  | .claimed jobs =>
    match s.pc with
    | .claiming _ => some { s with pc := .committing jobs }
    | _ => none
  | .raise => s.raise
  | .cancel => s.cancel
  | .finish i => s.tasks[i]?.map fun task => { s with tasks := s.tasks.set i { task with done := true } }
  | .inflightDone i =>
    if s.isDone i then some { s with inflight := s.inflight.filter fun entry => entry.1 ≠ i } else none
  | .requestStop => some { s with stopping := true }

/-- `claim_jobs` returns at most as many jobs as it was asked for. -/
def withinBatch (s : ClaimLoop) : LoopAction → Bool
  | .claimed jobs =>
    match s.pc with
    | .claiming batchSize => jobs.length ≤ batchSize
    | _ => true
  | _ => true

/-! ## The jobs of the rounds -/

/-- An observer notes down the jobs of the rounds whose commits have returned, and of those whose sessions
have been closed after it. -/
structure Rounds where
  committed : List (List JobRow)
  closed : List (List JobRow)

/-- Before the first round. -/
def Rounds.init : Rounds := ⟨[], []⟩

/-- One note of the observer. -/
def noteRounds (rounds : Rounds) (s : ClaimLoop) (a : LoopAction) (_ : ClaimLoop) : Rounds :=
  match s.pc, a with
  | .committing jobs, .proceed => { rounds with committed := rounds.committed ++ [jobs] }
  | .closing jobs, .proceed => { rounds with closed := rounds.closed ++ [jobs] }
  | _, _ => rounds

/-- The rounds whose session is being closed after its commit. -/
def LoopPc.pending : LoopPc → List (List JobRow)
  | .closing jobs => [jobs]
  | _ => []

/-- Neither an exception nor a cancellation comes out of the close of a session after its commit. -/
def closesNormally (s : ClaimLoop) : LoopAction → Bool
  | .raise | .cancel => s.pc.pending.isEmpty
  | _ => true

/-! ## What an action changes -/

/-- The slots that the loop has set aside for tasks. -/
def LoopPc.reserved : LoopPc → ℕ
  | .claiming batchSize => batchSize
  | .committing jobs | .closing jobs => jobs.length
  | _ => 0

/-- The loop as a user of a pool of slots. -/
def ClaimLoop.slots (s : ClaimLoop) : Slots := ⟨s.inflight.length, s.pc.reserved⟩

/-- What one action changes. -/
inductive ClaimLoop.Change (settings : WorkerSettings) (s : ClaimLoop) (a : LoopAction) : ClaimLoop → Prop
  /-- The loop goes on, neither from a commit nor from the close after it, or is asked to stop. -/
  | move (pc : LoopPc) (stopping : Bool)
      (hnote : ∀ jobs, s.pc = .committing jobs ∨ s.pc = .closing jobs → a ≠ .proceed)
      (hslots : withinBatch s a = true → s.slots.Move settings.workerConcurrency ⟨s.inflight.length, pc.reserved⟩)
      (hpending : closesNormally s a = true → pc.pending = s.pc.pending) :
      Change settings s a { s with pc := pc, stopping := stopping }
  /-- The commit returns. -/
  | commit (jobs : List JobRow) (hpc : s.pc = .committing jobs) (ha : a = .proceed) :
      Change settings s a { s with pc := .closing jobs }
  /-- The loop creates the tasks of a round. -/
  | dispatch (jobs : List JobRow) (hpc : s.pc = .closing jobs) (ha : a = .proceed) :
      Change settings s a ((jobs.foldl ClaimLoop.startTask s).endRound settings jobs)
  | finish (i : ℕ) (task : ExecuteTask) (htask : s.tasks[i]? = some task) (ha : a ≠ .proceed) :
      Change settings s a { s with tasks := s.tasks.set i { task with done := true } }
  | inflightDone (i : ℕ) (hdone : s.isDone i = true) (ha : a ≠ .proceed) :
      Change settings s a { s with inflight := s.inflight.filter fun entry => entry.1 ≠ i }

variable {settings : WorkerSettings} {s s' : ClaimLoop} {a : LoopAction}

/-- An await at which the loop has no slots set aside and no session of a committed round open. -/
def LoopPc.Idle (pc : LoopPc) : Prop := pc.reserved = 0 ∧ pc.pending = []

/-- After a round the loop goes on to a point where it has claimed nothing. -/
theorem ClaimLoop.idle_again (s : ClaimLoop) : s.again.pc.Idle := by
  unfold again
  split <;> exact ⟨rfl, rfl⟩

/-- The loop goes to an idle await, unless it dispatches. -/
theorem ClaimLoop.Change.release {pc : LoopPc} (hpc : pc.Idle)
    (hnote : ∀ jobs, s.pc = .committing jobs ∨ s.pc = .closing jobs → a ≠ .proceed)
    (hpending : closesNormally s a = true → s.pc.pending = []) (stopping : Bool) :
    s.Change settings a { s with pc := pc, stopping := stopping } :=
  .move pc stopping hnote (fun _ => .giveUp (hpc.1 ▸ Nat.zero_le _)) fun hcloses => hpc.2.trans (hpending hcloses).symm

/-- The awaits of the commit and of the close after it. -/
def LoopPc.endsRound : LoopPc → Bool
  | .committing _ | .closing _ => true
  | _ => false

/-- The loop goes on to an idle await, but not from the end of a round. -/
theorem ClaimLoop.Change.onward {pc : LoopPc} (hpc : pc.Idle) (hs : s.pc.endsRound = false) (stopping : Bool) :
    s.Change settings .proceed { s with pc := pc, stopping := stopping } := by
  refine .release hpc (fun jobs hend => ?_) (fun _ => ?_) stopping
  · rcases hend with hend | hend <;> rw [hend] at hs <;> cases hs
  · cases hend : s.pc with
    | closing => rw [hend] at hs; cases hs
    | _ => rfl

/-- An await that returns makes one of the changes. -/
theorem ClaimLoop.change_proceed (h : s.proceed settings = some s') : s.Change settings .proceed s' := by
  unfold proceed at h
  cases hpc : s.pc with
  | heartbeat =>
    rw [hpc] at h
    exact Option.some.inj h ▸ .onward ⟨rfl, rfl⟩ (by rw [hpc]; rfl) _
  | opening =>
    rw [hpc] at h
    exact Option.some.inj h ▸ .onward ⟨rfl, rfl⟩ (by rw [hpc]; rfl) _
  | recovering =>
    rw [hpc] at h
    obtain rfl := Option.some.inj h
    refine .move _ s.stopping (by simp [hpc]) (fun _ => .reserve ?_) fun _ => ?_
    · split_ifs with hpos
      · exact Nat.min_le_right _ _
      · exact Nat.zero_le _
    · rw [hpc]
      split <;> rfl
  | claiming => simp [hpc] at h
  | committing jobs =>
    rw [hpc] at h
    exact Option.some.inj h ▸ .commit jobs hpc rfl
  | closing jobs =>
    rw [hpc] at h
    exact Option.some.inj h ▸ .dispatch jobs hpc rfl
  | unwinding why =>
    rw [hpc] at h
    cases why <;> exact Option.some.inj h ▸ .onward ⟨rfl, rfl⟩ (by rw [hpc]; rfl) _
  | sleeping =>
    rw [hpc] at h
    exact Option.some.inj h ▸ .onward s.idle_again (by rw [hpc]; rfl) _
  | waitingForOne tasks =>
    simp only [hpc] at h
    split_ifs at h
    exact Option.some.inj h ▸ .onward s.idle_again (by rw [hpc]; rfl) _
  | left => simp [hpc] at h

/-- So does an await that raises. -/
theorem ClaimLoop.change_raise (h : s.raise = some s') : s.Change settings .raise s' := by
  have hpending : closesNormally s .raise = true → s.pc.pending = [] := List.isEmpty_iff.mp
  have hrelease {pc : LoopPc} (hpc : pc.Idle) : s.Change settings .raise { s with pc := pc } :=
    .release hpc (by simp) hpending s.stopping
  unfold raise at h
  split at h <;> cases h <;> exact hrelease ⟨rfl, rfl⟩

/-- So does an await that is cancelled. -/
theorem ClaimLoop.change_cancel (h : s.cancel = some s') : s.Change settings .cancel s' := by
  have hpending : closesNormally s .cancel = true → s.pc.pending = [] := List.isEmpty_iff.mp
  have hrelease {pc : LoopPc} (hpc : pc.Idle) : s.Change settings .cancel { s with pc := pc } :=
    .release hpc (by simp) hpending s.stopping
  unfold cancel at h
  split at h <;> cases h <;> exact hrelease ⟨rfl, rfl⟩

/-- Every action makes one of these changes. -/
theorem ClaimLoop.change_of_step (h : s.step settings a = some s') : s.Change settings a s' := by
  cases a with
  | proceed => exact change_proceed h
  | claimed jobs =>
    simp only [step] at h
    split at h
    · rename_i batchSize hpc
      refine Option.some.inj h ▸ .move (.committing jobs) _ (by simp) (fun hbatch => .giveUp ?_) fun _ => ?_
      · rw [slots, hpc]
        simpa [withinBatch, hpc, LoopPc.reserved] using hbatch
      · rw [hpc]
        rfl
    · cases h
  | raise => exact change_raise h
  | cancel => exact change_cancel h
  | finish i =>
    obtain ⟨task, htask, rfl⟩ := Option.map_eq_some_iff.mp h
    exact .finish i task htask (by simp)
  | inflightDone i =>
    simp only [step] at h
    split_ifs at h with hdone
    exact Option.some.inj h ▸ .inflightDone i hdone (by simp)
  | requestStop => exact Option.some.inj h ▸ .move s.pc true (by simp) (fun _ => .stay _) fun _ => rfl

/-! ## Starting tasks -/

/-- The end of a round keeps what the loop has started, and goes to an idle await. -/
theorem ClaimLoop.endRound_keeps (settings : WorkerSettings) (jobs : List JobRow) (s : ClaimLoop) :
    (s.endRound settings jobs).tasks = s.tasks ∧ (s.endRound settings jobs).inflight = s.inflight ∧
      (s.endRound settings jobs).pc.Idle := by
  unfold endRound
  split_ifs
  · exact ⟨rfl, rfl, s.idle_again⟩
  · exact ⟨rfl, rfl, rfl, rfl⟩
  · exact ⟨rfl, rfl, rfl, rfl⟩
  · exact ⟨rfl, rfl, s.idle_again⟩

/-- Each job gets one task, in the order of the jobs. -/
theorem ClaimLoop.tasks_startTasks (jobs : List JobRow) (s : ClaimLoop) :
    (jobs.foldl startTask s).tasks = s.tasks ++ jobs.map fun job => ⟨job, false⟩ := by
  induction jobs generalizing s with
  | nil => simp
  | cons job jobs ih => simp [ih, startTask]

/-- The places of the new tasks follow those of the old ones in `_inflight`. -/
theorem ClaimLoop.inflight_startTasks (jobs : List JobRow) (s : ClaimLoop) :
    (jobs.foldl startTask s).inflight.map Prod.fst =
      s.inflight.map Prod.fst ++ List.range' s.tasks.length jobs.length := by
  induction jobs generalizing s with
  | nil => simp
  | cons job jobs ih =>
    rw [List.foldl_cons, ih]
    simp [startTask, List.range'_succ]

/-- Every started task is in `_inflight`. -/
theorem ClaimLoop.length_inflight_startTasks (jobs : List JobRow) (s : ClaimLoop) :
    (jobs.foldl startTask s).inflight.length = s.inflight.length + jobs.length := by
  have hlength := congrArg List.length (inflight_startTasks jobs s)
  simpa using hlength

/-! ## The bound -/

/-- Every action is a move of the slots, if the claims keep to their batch sizes. -/
theorem ClaimLoop.Change.slots_move (h : s.Change settings a s') (hbatch : withinBatch s a = true) :
    s.slots.Move settings.workerConcurrency s'.slots := by
  cases h with
  | move pc stopping hnote hslots => exact hslots hbatch
  | commit jobs hpc =>
    refine .giveUp ?_
    rw [slots, hpc]
    exact Nat.le_refl _
  | dispatch jobs hpc ha =>
    obtain ⟨-, hinflight, hreserved, -⟩ := endRound_keeps settings jobs (jobs.foldl startTask s)
    have hslots : ((jobs.foldl startTask s).endRound settings jobs).slots = ⟨s.slots.taken + jobs.length, 0⟩ := by
      rw [slots, hinflight, hreserved, length_inflight_startTasks]
      rfl
    rw [hslots]
    refine .start ?_
    rw [slots, hpc]
    exact Nat.le_refl _
  | finish => exact .stay _
  | inflightDone => exact .free (List.length_filter_le _ _)

/-- Every task that is not done is in `_inflight`. -/
def ClaimLoop.Tracked (s : ClaimLoop) : Prop :=
  ∀ i < s.tasks.length, s.isDone i = false → i ∈ s.inflight.map Prod.fst

/-- Every change keeps the unfinished tasks in `_inflight`. -/
theorem ClaimLoop.Tracked.change (hs : s.Tracked) (h : s.Change settings a s') : s'.Tracked := by
  cases h with
  | move | commit => exact hs
  | dispatch jobs =>
    obtain ⟨htasks, hinflight, -⟩ := endRound_keeps settings jobs (jobs.foldl startTask s)
    intro i hi hopen
    simp only [isDone, htasks, tasks_startTasks, List.length_append, List.length_map] at hi hopen
    rw [hinflight, inflight_startTasks, List.mem_append, List.mem_range'_1]
    by_cases hold : i < s.tasks.length
    · rw [List.getElem?_append_left hold] at hopen
      exact .inl (hs i hold hopen)
    · exact .inr ⟨Nat.le_of_not_lt hold, hi⟩
  | finish i task htask =>
    intro j hj hopen
    rw [List.length_set] at hj
    by_cases hij : i = j
    · subst hij
      simp [isDone, hj] at hopen
    · rw [isDone, List.getElem?_set_ne hij] at hopen
      exact hs j hj hopen
  | inflightDone i hdone =>
    intro j hj hopen
    obtain ⟨entry, hentry, rfl⟩ := List.mem_map.mp (hs j hj hopen)
    refine List.mem_map_of_mem (List.mem_filter.mpr ⟨hentry, ?_⟩)
    rw [decide_eq_true_eq]
    rintro rfl
    exact Bool.false_ne_true (hopen.symm.trans hdone)

/-- Tasks that are not done never exceed the concurrency, if the claims keep to their batch sizes. -/
theorem length_unfinished_le (h : ReachesUnder (ClaimLoop.step settings) (fun s a => withinBatch s a = true) .init s) :
    s.unfinished.length ≤ settings.workerConcurrency := by
  have htracked : s.Tracked := h.invariant (fun i hi _ => absurd hi (Nat.not_lt_zero i))
    fun _ _ _ hs _ hstep => hs.change (ClaimLoop.change_of_step hstep)
  have hwithin : s.slots.Within settings.workerConcurrency := by
    refine Slots.within_of_reflTransGen ClaimLoop.slots (fun _ _ hlast => ?_) h (Nat.zero_le _)
    obtain ⟨_, hbatch, hstep⟩ := hlast
    exact (ClaimLoop.change_of_step hstep).slots_move hbatch
  have htaken : s.inflight.length ≤ settings.workerConcurrency := Nat.le_of_add_right_le hwithin
  calc s.unfinished.length ≤ (s.inflight.map Prod.fst).length :=
        length_filter_range_le fun i hi hopen => htracked i hi (by simpa using hopen)
    _ = s.inflight.length := List.length_map _
    _ ≤ settings.workerConcurrency := htaken

/-- The rows that the claim statement returns keep to the batch size. -/
theorem withinBatch_of_claimSelects {now : Timestamp} {names : List QueueName} {batchSize : ℕ} {queues : QueueTable}
    {jobs : JobTable} {claimed : List JobEntry} (hpc : s.pc = .claiming batchSize)
    (h : ClaimSelects now names batchSize queues jobs claimed) :
    withinBatch s (.claimed (claimed.map JobEntry.row)) = true := by
  simp only [withinBatch, hpc, decide_eq_true_eq, List.length_map, h.greedySchedule.count]
  exact Nat.min_le_left _ _

/-! ## The bound in the model of the shutdown -/

/-- The slots that the runner has set aside for tasks. -/
def RunnerPc.reserved : RunnerPc → ℕ
  | .claiming batchSize => batchSize
  | _ => 0

/-- The worker as a user of a pool of slots. -/
def Worker.slots (w : Worker) : Slots := ⟨w.inflight.length, w.pc.reserved⟩

/-- The tasks of a worker that are not done. -/
def Worker.unfinished (w : Worker) : List ℕ := (List.range w.runs.length).filter fun i => !w.isDone i

/-- Every task of a worker that is not done is in `_inflight`. -/
def Worker.Tracked (w : Worker) : Prop :=
  ∀ (i : ℕ) (run : Execution × JobRun), w.runs[i]? = some run → run.2.pc.isDone = false → i ∈ w.inflight

variable {codecs : Codecs} {worker : WorkerId} {w w' : Worker} {act : WorkerAction}

/-- After a round no slot is set aside any more. -/
theorem Worker.reserved_spawn (settings : WorkerSettings) (w : Worker) (xs : List Execution)
    (jobs : JobId → Option JobEntry) : (w.spawn settings xs jobs).pc.reserved = 0 := by
  simp only [spawn]
  split_ifs <;> rfl

/-- Every step of a worker is a move in its pool of slots. -/
theorem Worker.Step.slots_move (h : Worker.Step codecs settings worker w act w') :
    w.slots.Move settings.workerConcurrency w'.slots := by
  have hrelease {pc : RunnerPc} (hpc : pc.reserved = 0) :
      w.slots.Move settings.workerConcurrency ⟨w.inflight.length, pc.reserved⟩ := .giveUp (hpc ▸ Nat.zero_le _)
  cases h with
  | requestStop | task | other => exact .stay _
  | beginRound | roundFails | oneDone | wake | leave | awaited => exact hrelease rfl
  | purgeEnded => exact hrelease (by split_ifs <;> rfl)
  | countSlots => exact .reserve (Nat.min_le_right _ _)
  | @claim batchSize xs jobs hpc hlength =>
    have hslots : (w.spawn settings xs jobs).slots = ⟨w.slots.taken + xs.length, 0⟩ := by
      rw [Worker.slots, Worker.reserved_spawn]
      simp [Worker.spawn, Worker.slots]
    rw [hslots]
    refine .start ?_
    rw [Worker.slots, hpc]
    exact hlength
  | @graceOver tasks hpc =>
    have hpending : w.slots.reserved = 0 := by
      rw [Worker.slots, hpc]
      rfl
    have hslots : (w.cancelPending tasks).slots = ⟨(w.cancelPending tasks).inflight.length, w.slots.reserved⟩ := by
      rw [hpending]
      rfl
    rw [hslots]
    exact .free (List.length_filter_le _ _)
  | inflightDone => exact .free List.length_erase_le

/-- Every step of a worker keeps its unfinished tasks in `_inflight`. -/
theorem Worker.Tracked.step (hw : w.Tracked) (h : Worker.Step codecs settings worker w act w') : w'.Tracked := by
  cases h with
  | requestStop | beginRound | countSlots | roundFails | oneDone | wake | leave | purgeEnded | awaited | other =>
    exact hw
  | @claim batchSize xs jobs =>
    intro i run hrun hopen
    by_cases hold : i < w.runs.length
    · rw [Worker.spawn, List.getElem?_append_left hold] at hrun
      exact List.mem_append_left _ (hw i run hrun hopen)
    · have hlt : i < (w.spawn settings xs jobs).runs.length := (List.getElem?_eq_some_iff.mp hrun).1
      simp only [Worker.spawn, List.length_append, List.length_map] at hlt
      exact List.mem_append_right _ (List.mem_range'_1.mpr ⟨Nat.le_of_not_lt hold, hlt⟩)
  | @graceOver tasks =>
    intro i run hrun hopen
    obtain ⟨run', hrun', -, hpc, -⟩ := cancelPending_keeps hrun
    have hopen' : w.isDone i = false := by rw [Worker.isDone, hrun', Option.any_some, ← hpc, hopen]
    refine List.mem_filter.mpr ⟨hw i run' hrun' (hpc ▸ hopen), ?_⟩
    by_cases hmem : i ∈ tasks <;> simp [hmem, hopen']
  | @inflightDone i hdone =>
    intro j run hrun hopen
    refine (List.mem_erase_of_ne ?_).mpr (hw j run hrun hopen)
    rintro rfl
    rw [Worker.isDone, hrun, Option.any_some, hopen] at hdone
    cases hdone
  | @task i x run run' hrun hstep =>
    intro j r hr hopen
    rcases getElem?_set_cases hr with ⟨rfl, rfl⟩ | ⟨-, hr⟩
    · refine hw _ _ hrun (Bool.eq_false_iff.mpr fun hdone => ?_)
      exact absurd (hstep.isDone hdone) (by rw [hopen]; decide)
    · exact hw j r hr hopen

/-- Also where the tasks take their own steps: in every run of the worker, the tasks that are not done
never exceed the concurrency. -/
theorem worker_length_unfinished_le {ok : Worker → WorkerAction → Prop}
    (h : Worker.ReachedUnder codecs settings worker ok w) : w.unfinished.length ≤ settings.workerConcurrency := by
  have htracked : w.Tracked := by
    induction h with
    | refl => exact fun i run hrun => by simp [Worker.init] at hrun
    | tail _ hlast ih =>
      obtain ⟨_, -, hstep⟩ := hlast
      exact ih.step hstep
  have hwithin : w.slots.Within settings.workerConcurrency := by
    refine Slots.within_of_reflTransGen Worker.slots (fun _ _ hlast => ?_) h (Nat.zero_le _)
    obtain ⟨_, -, hstep⟩ := hlast
    exact hstep.slots_move
  have htaken : w.inflight.length ≤ settings.workerConcurrency := Nat.le_of_add_right_le hwithin
  refine (length_filter_range_le fun i hi hopen => ?_).trans htaken
  exact htracked i w.runs[i] (List.getElem?_eq_getElem hi) (by simpa [Worker.isDone, hi] using hopen)

/-! ## The tasks of the rounds -/

/-- The jobs that have got a task. -/
def ClaimLoop.started (s : ClaimLoop) : List JobRow := s.tasks.map ExecuteTask.job

/-- Nothing is noted but the returns of commits and of the closes after them. -/
theorem noteRounds_eq {rounds : Rounds} (h : ∀ jobs, s.pc = .committing jobs ∨ s.pc = .closing jobs → a ≠ .proceed) :
    noteRounds rounds s a s' = rounds := by
  unfold noteRounds
  split
  · rename_i jobs hpc
    exact absurd rfl (h jobs (.inl hpc))
  · rename_i jobs hpc
    exact absurd rfl (h jobs (.inr hpc))
  · rfl

/-- The return of a commit is noted down. -/
theorem noteRounds_commit (rounds : Rounds) {jobs : List JobRow} (hpc : s.pc = .committing jobs) :
    noteRounds rounds s .proceed s' = ⟨rounds.committed ++ [jobs], rounds.closed⟩ := by
  unfold noteRounds
  rw [hpc]

/-- The return of a close is noted down. -/
theorem noteRounds_close (rounds : Rounds) {jobs : List JobRow} (hpc : s.pc = .closing jobs) :
    noteRounds rounds s .proceed s' = ⟨rounds.committed, rounds.closed ++ [jobs]⟩ := by
  unfold noteRounds
  rw [hpc]

/-- The jobs with a task are those of the rounds whose sessions have been closed. -/
theorem ClaimLoop.Change.started {rounds : Rounds} (h : s.Change settings a s')
    (hs : s.started = rounds.closed.flatten) : s'.started = (noteRounds rounds s a s').closed.flatten := by
  cases h with
  | move pc stopping hnote =>
    rw [noteRounds_eq hnote]
    exact hs
  | commit jobs hpc ha =>
    rw [ha, noteRounds_commit rounds hpc]
    exact hs
  | dispatch jobs hpc ha =>
    obtain ⟨htasks, -, -⟩ := endRound_keeps settings jobs (jobs.foldl startTask s)
    rw [ha, noteRounds_close rounds hpc, ClaimLoop.started, htasks, tasks_startTasks, List.map_append,
      List.flatten_concat, ← hs]
    simp [ClaimLoop.started, Function.comp_def]
  | finish i task htask ha =>
    rw [noteRounds_eq fun _ _ => ha, ← hs]
    obtain ⟨hi, rfl⟩ := List.getElem?_eq_some_iff.mp htask
    have hmap : i < (s.tasks.map ExecuteTask.job).length := by simpa using hi
    have hjob : s.tasks[i].job = (s.tasks.map ExecuteTask.job)[i] := (List.getElem_map _).symm
    rw [ClaimLoop.started, List.map_set, hjob, List.set_getElem_self]
    rfl
  | inflightDone i hdone ha =>
    rw [noteRounds_eq fun _ _ => ha]
    exact hs

/-- If every close returns, only the round whose session is being closed has been committed but not closed. -/
theorem ClaimLoop.Change.committed {rounds : Rounds} (h : s.Change settings a s') (hcloses : closesNormally s a = true)
    (hs : rounds.committed = rounds.closed ++ s.pc.pending) :
    (noteRounds rounds s a s').committed = (noteRounds rounds s a s').closed ++ s'.pc.pending := by
  cases h with
  | move pc stopping hnote hslots hpending =>
    rw [noteRounds_eq hnote, hs, ← hpending hcloses]
  | commit jobs hpc ha =>
    rw [hpc] at hs
    rw [ha, noteRounds_commit rounds hpc, hs]
    simp [LoopPc.pending]
  | dispatch jobs hpc ha =>
    obtain ⟨-, -, -, hpending⟩ := endRound_keeps settings jobs (jobs.foldl startTask s)
    rw [ha, noteRounds_close rounds hpc, hpending, hs, hpc]
    simp [LoopPc.pending]
  | finish i task htask ha => rw [noteRounds_eq fun _ _ => ha, hs]
  | inflightDone i hdone ha => rw [noteRounds_eq fun _ _ => ha, hs]

/-- In every interleaving of the loop with its tasks, whatever the awaits raise: the tasks that are not done
never exceed the concurrency, if the claims keep to their batch sizes; and the jobs with a task are, each once
and in order, the jobs of the rounds whose commit has returned and whose session has been closed. If every
close returns, these are all rounds whose commit has returned, at every await but the close itself. -/
theorem claimLoop_bounded_dispatches (settings : WorkerSettings) :
    (∀ s, ReachesUnder (ClaimLoop.step settings) (fun s a => withinBatch s a = true) .init s →
      s.unfinished.length ≤ settings.workerConcurrency) ∧
    (∀ s rounds, Reaches (observed (ClaimLoop.step settings) noteRounds) (.init, .init) (s, rounds) →
      s.started = rounds.closed.flatten) ∧
    ∀ s rounds, ReachesUnder (observed (ClaimLoop.step settings) noteRounds)
        (fun sr a => closesNormally sr.1 a = true) (.init, .init) (s, rounds) →
      s.pc.pending = [] → s.started = rounds.committed.flatten := by
  have hstarted {s : ClaimLoop} {rounds : Rounds}
      (h : Reaches (observed (ClaimLoop.step settings) noteRounds) (.init, .init) (s, rounds)) :
      s.started = rounds.closed.flatten :=
    h.observed_invariant (fun _ _ => True) (I := fun s rounds => s.started = rounds.closed.flatten) rfl
      fun _ _ _ _ hs _ hstep => (ClaimLoop.change_of_step hstep).started hs
  refine ⟨fun s h => length_unfinished_le h, fun s rounds h => hstarted h, fun s rounds h hpending => ?_⟩
  have hcommitted : rounds.committed = rounds.closed ++ s.pc.pending :=
    h.observed_invariant (fun s a => closesNormally s a = true)
      (I := fun s rounds => rounds.committed = rounds.closed ++ s.pc.pending) rfl
      fun _ _ _ _ hs hcloses hstep => (ClaimLoop.change_of_step hstep).committed hcloses hs
  rw [hcommitted, hpending, List.append_nil]
  exact hstarted h.reaches

/-- A job is claimed, and the commit of the round returns. -/
def committedRound : List LoopAction :=
  [.proceed, .proceed, .proceed, .claimed [insertJob 0 0 (handlerJob "mail" 2)], .proceed]

/-- One round of one job, from its claim to its task. -/
theorem claimLoop_bounded_dispatches_committedRound : ∃ s rounds,
    runChecked (observed (ClaimLoop.step ⟨1, 1⟩) noteRounds)
        (fun sr a => withinBatch sr.1 a && closesNormally sr.1 a) (.init, .init) (committedRound ++ [.proceed]) =
      some (s, rounds) ∧ s.started.length = 1 ∧
      s.unfinished.length ≤ 1 ∧ s.started = rounds.closed.flatten ∧ s.started = rounds.committed.flatten := by
  have hrun : (runChecked (observed (ClaimLoop.step ⟨1, 1⟩) noteRounds)
      (fun sr a => withinBatch sr.1 a && closesNormally sr.1 a) (.init, .init) (committedRound ++ [.proceed])).any
        (fun sr => sr.1.pc.pending.isEmpty && decide (sr.1.started.length = 1)) = true := by
    decide
  obtain ⟨⟨s, rounds⟩, hs, hend⟩ := Option.any_eq_true _ _ |>.mp hrun
  obtain ⟨hpending, hstarted⟩ := Bool.and_eq_true_iff.mp hend
  have hbatch : ReachesUnder (observed (ClaimLoop.step ⟨1, 1⟩) noteRounds) (fun sr a => withinBatch sr.1 a = true)
      (.init, .init) (s, rounds) := reachesUnder_of_runChecked (fun _ _ h => (Bool.and_eq_true_iff.mp h).1) hs
  have hcloses : ReachesUnder (observed (ClaimLoop.step ⟨1, 1⟩) noteRounds) (fun sr a => closesNormally sr.1 a = true)
      (.init, .init) (s, rounds) := reachesUnder_of_runChecked (fun _ _ h => (Bool.and_eq_true_iff.mp h).2) hs
  obtain ⟨hbound, hclosed, hcommitted⟩ := claimLoop_bounded_dispatches ⟨1, 1⟩
  exact ⟨s, rounds, hs, of_decide_eq_true hstarted,
    hbound s (ReachesUnder.of_observed (fun s a => withinBatch s a = true) hbatch), hclosed s rounds hcloses.reaches,
    hcommitted s rounds hcloses (List.isEmpty_iff.mp hpending)⟩

/-- A run of one of the allowed actions, to an await at which a committed round has not got its tasks. -/
theorem not_dispatches_of_run {allowed : LoopAction → Bool} {acts : List LoopAction}
    (hrun : (runChecked (observed (ClaimLoop.step ⟨1, 1⟩) noteRounds) (fun _ a => allowed a) (.init, .init) acts).any
      (fun sr => sr.1.pc.pending.isEmpty && decide (sr.1.started.length ≠ sr.2.committed.flatten.length)) = true) :
    ¬ ∀ settings s rounds, ReachesUnder (observed (ClaimLoop.step settings) noteRounds) (fun _ a => allowed a = true)
      (.init, .init) (s, rounds) → s.pc.pending = [] → s.started = rounds.committed.flatten := by
  intro hall
  obtain ⟨⟨s, rounds⟩, hs, hend⟩ := Option.any_eq_true _ _ |>.mp hrun
  obtain ⟨hpending, hlost⟩ := Bool.and_eq_true_iff.mp hend
  have hstarted := hall ⟨1, 1⟩ s rounds (reachesUnder_of_runChecked (fun _ _ h => h) hs) (List.isEmpty_iff.mp hpending)
  exact of_decide_eq_true hlost (congrArg List.length hstarted)

/-- The loop is cancelled here. -/
def LoopAction.isCancel : LoopAction → Bool
  | .cancel => true
  | _ => false

/-- An exception is raised here. -/
def LoopAction.isRaise : LoopAction → Bool
  | .raise => true
  | _ => false

/-- At other awaits than the close, too, the jobs of a committed round may be without tasks, in a run in
which nothing is cancelled as well as in one in which nothing raises an exception. -/
theorem not_dispatches_committedRound :
    (¬ ∀ settings s rounds, ReachesUnder (observed (ClaimLoop.step settings) noteRounds)
      (fun _ a => (!a.isCancel) = true) (.init, .init) (s, rounds) →
        s.pc.pending = [] → s.started = rounds.committed.flatten) ∧
    ¬ ∀ settings s rounds, ReachesUnder (observed (ClaimLoop.step settings) noteRounds)
      (fun _ a => (!a.isRaise) = true) (.init, .init) (s, rounds) →
        s.pc.pending = [] → s.started = rounds.committed.flatten :=
  ⟨@not_dispatches_of_run _ (committedRound ++ [.raise]) (by decide),
    @not_dispatches_of_run _ (committedRound ++ [.cancel]) (by decide)⟩

end PgRelay
