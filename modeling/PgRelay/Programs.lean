import PgRelay.Statements

/-!
# What each program writes

The operations a transaction has performed are determined by its program and the point it has
reached: a claim round recovers, then claims exactly the rows it returns; a call or a cancel writes
once if it reports success and not at all otherwise. No other transaction has a say in this.
-/

namespace PgRelay

open RowStore

variable {s : State} {t : TxnId} {T : Txn} {effect : Effect}

/-- The operations an open transaction has performed. -/
def Txn.events (T : Txn) : List JobEvent := T.changes.map fun c => c.event.event

/-- The rows a claim has returned. -/
def ClaimPc.returned : ClaimPc → List JobRow
  | .finished rows => rows
  | _ => []

/-- The operation of a call that takes effect. -/
def CallOp.event (x : Execution) : CallOp → JobEvent
  | .extendLease leaseSeconds => .extended x leaseSeconds
  | .returnToPending => .returned x
  | .complete args => .completed x args
  | .fail args => .failed x args

/-- The operations of a program up to the point it has reached. -/
def Task.Writes (t : TxnId) : Task → List JobEvent → Prop
  | .claimLoop args pc, events => ∃ ids : List JobId, events = ids.map JobEvent.recovered ++
      pc.returned.map fun row => .claimed ⟨t, args.worker, row⟩ args.leaseSeconds
  | .call x op pc, events => events = if pc = .finished true then [op.event x] else []
  | .cancel id pc, events => events = if pc = .finished .cancelled then [.cancelled id] else []
  | .insert _ _, events => ∀ e ∈ events, ∃ id job, e = .inserted id job
  | .replay _ _ _, events => events = []
  | .updateQueue _ _, events => events = []
  | .purge args _, events => ∀ e ∈ events, (∃ id, e = .unlinked id) ∨ ∃ id, e = .deleted id args

/-- A step adds the events of its changes. -/
theorem events_after (T : Txn) (effect : Effect) :
    (T.after effect).events = T.events ++ effect.changes.map fun c => c.event.event := List.map_append

/-- A step that writes no job keeps the operations. -/
theorem events_after_of_nil {effect : Effect} (h : effect.changes = []) :
    (T.after effect).events = T.events := by
  rw [events_after, h]
  exact List.append_nil _

/-- Visiting a candidate writes nothing. -/
theorem claimScan_writes {args : ClaimArgs} {snapshot : JobTable} {todo : List QueueName}
    {picked : List JobId}
    {active : List ActiveQueue} (hw : Task.Writes t (.claimLoop args (.claiming snapshot todo active picked)) T.events)
    (he : claimScan s t T args snapshot todo picked active = some effect) :
    effect.task.Writes t (T.after effect).events := by
  have hquiet {effect' : Effect} {active' : List ActiveQueue} {picked' : List JobId}
      (htask : effect'.task = .claimLoop args (.claiming snapshot todo active' picked'))
      (hchanges : effect'.changes = []) : effect'.task.Writes t (T.after effect').events := by
    rw [events_after_of_nil hchanges, htask]
    exact hw
  unfold claimScan at he
  split at he
  · cases he
  · cases he; exact hquiet rfl rfl
  · cases he; exact hquiet rfl rfl
  · split_ifs at he
    · split at he
      · cases he; exact hquiet rfl rfl
      · split_ifs at he
        · cases he; exact hquiet rfl rfl
        · cases he; exact hquiet rfl rfl
    · cases he; exact hquiet rfl rfl

/-- Every statement of a claim round keeps to what its program writes. -/
theorem claimStatement_writes {args : ClaimArgs} {pc : ClaimPc}
    (hw : Task.Writes t (.claimLoop args pc) T.events)
    (he : claimStatement s t T args pc = some effect) :
    effect.task.Writes t (T.after effect).events := by
  have hquiet {effect' : Effect} {pc' : ClaimPc} (htask : effect'.task = .claimLoop args pc')
      (hpc : pc'.returned = pc.returned) (hchanges : effect'.changes = []) :
      effect'.task.Writes t (T.after effect').events := by
    rw [events_after_of_nil hchanges, htask]
    simpa only [Task.Writes, hpc] using hw
  unfold claimStatement at he
  split at he
  · cases he; exact hquiet rfl rfl rfl
  · cases he; exact hquiet rfl rfl rfl
  · cases he; exact hquiet rfl rfl rfl
  · rename_i id todo limit
    split_ifs at he
    · split at he
      · cases he; exact hquiet rfl rfl rfl
      · split_ifs at he
        · cases he
          obtain ⟨ids, hids⟩ := hw
          refine ⟨ids ++ [id], ?_⟩
          rw [events_after, hids]
          simp [ClaimPc.returned]
        · cases he; exact hquiet rfl rfl rfl
    · cases he; exact hquiet rfl rfl rfl
  · split_ifs at he
    cases he; exact hquiet rfl rfl rfl
  · cases he; exact hquiet rfl rfl rfl
  · split_ifs at he
    cases he; exact hquiet rfl rfl rfl
  · cases he; exact hquiet rfl rfl rfl
  · split_ifs at he
    split at he
    · cases he; exact hquiet rfl rfl rfl
    · split_ifs at he
      · cases he; exact hquiet rfl rfl rfl
      · cases he; exact hquiet rfl rfl rfl
  · cases he
    obtain ⟨ids, hids⟩ := hw
    refine ⟨ids, ?_⟩
    rw [events_after, hids]
    simp [ClaimPc.returned, claimChange]
  · exact claimScan_writes hw he
  · cases he

/-- So does every statement of a call. -/
theorem callStatement_writes {x : Execution} {op : CallOp} {pc : CallPc}
    (hw : Task.Writes t (.call x op pc) T.events) (he : callStatement s t T x op pc = some effect) :
    effect.task.Writes t (T.after effect).events := by
  have hquiet (hpc : pc ≠ .finished true) {pc' : CallPc} (hpc' : pc' ≠ .finished true) :
      Task.Writes t (.call x op pc') (T.after { task := .call x op pc' }).events := by
    rw [events_after_of_nil rfl]
    simpa only [Task.Writes, if_neg hpc, if_neg hpc'] using hw
  obtain ⟨pc', hpc, rfl⟩ | ⟨entry, rfl, -, -, -, rfl⟩ := callStatement_cases he
  · rcases hpc with ⟨rfl, rfl | rfl⟩ | ⟨rfl, rfl⟩ <;> exact hquiet (by decide) (by decide)
  · have hnil : T.events = [] := hw
    rw [events_after, hnil]
    cases op <;> rfl

/-- So does every statement of a cancellation. -/
theorem cancelStatement_writes {id : JobId} {pc : CancelPc}
    (hw : Task.Writes t (.cancel id pc) T.events) (he : cancelStatement s t T id pc = some effect) :
    effect.task.Writes t (T.after effect).events := by
  have hquiet (hpc : pc ≠ .finished .cancelled) {pc' : CancelPc} (hpc' : pc' ≠ .finished .cancelled) :
      Task.Writes t (.cancel id pc') (T.after { task := .cancel id pc' }).events := by
    rw [events_after_of_nil rfl]
    simpa only [Task.Writes, if_neg hpc, if_neg hpc'] using hw
  obtain ⟨pc', hpc, rfl⟩ | ⟨entry, rfl, -, -, -, rfl⟩ := cancelStatement_cases he
  · rcases hpc with ⟨rfl, rfl | rfl | rfl⟩ | ⟨rfl, rfl | rfl⟩ | ⟨rfl, rfl⟩ <;>
      exact hquiet (by decide) (by decide)
  · have hnil : T.events = [] := hw
    rw [events_after, hnil]
    rfl

/-- The insertion of a missing queue writes no job. -/
theorem upsertQueue_changes {name : QueueName} {next : Task}
    (he : upsertQueue s t T name next = some effect) :
    effect.task = next ∧ effect.changes = [] := by
  obtain ⟨-, rfl⟩ | ⟨-, -, rfl⟩ := upsertQueue_cases he <;> exact ⟨rfl, rfl⟩

/-- An insertion writes the new job. -/
theorem insertNew_writes {job : NewJob} (hw : ∀ e ∈ T.events, ∃ id job, e = .inserted id job)
    (he : insertNew s t T job = some effect) : effect.task.Writes t (T.after effect).events := by
  obtain ⟨-, -, rfl⟩ := insertNew_cases he
  intro e hmem
  rw [events_after] at hmem
  rcases List.mem_append.mp hmem with hold | hnew
  · exact hw e hold
  · exact ⟨s.nextJob, job, by simpa using hnew⟩

/-- A step of an insertion writes the new job or nothing. -/
theorem insertStatement_writes {job : NewJob} {pc : InsertPc}
    (hw : Task.Writes t (.insert job pc) T.events) (he : insertStatement s t T job pc = some effect) :
    effect.task.Writes t (T.after effect).events := by
  rcases insertStatement_cases he with he | he | ⟨pc', keyLock, queueShare, rfl⟩
  · obtain ⟨htask, hchanges⟩ := upsertQueue_changes he
    rw [events_after_of_nil hchanges, htask]
    exact hw
  · exact insertNew_writes hw he
  · rw [events_after_of_nil rfl]
    exact hw

/-- Every statement of a replay keeps to what its program writes. -/
theorem replayStatement_writes {id : JobId} {force : Bool} {pc : ReplayPc} (hw : T.events = [])
    (he : replayStatement s T id force pc = some effect) :
    effect.task.Writes t (T.after effect).events := by
  obtain ⟨-, ⟨pc', -, rfl⟩ | ⟨source, -, rfl⟩⟩ := replayStatement_cases he
  · rw [events_after_of_nil rfl]
    exact hw
  · rw [events_after_of_nil rfl, hw]
    exact fun e he => absurd he List.not_mem_nil

/-- So does every statement of an update of a queue. -/
theorem queueStatement_writes {args : QueueArgs} {pc : QueuePc} (hw : T.events = [])
    (he : queueStatement s t T args pc = some effect) :
    effect.task.Writes t (T.after effect).events := by
  have hquiet {effect' : Effect} {pc' : QueuePc} (htask : effect'.task = .updateQueue args pc')
      (hchanges : effect'.changes = []) : effect'.task.Writes t (T.after effect').events := by
    rw [events_after_of_nil hchanges, htask]
    exact hw
  obtain ⟨-, hupsert⟩ | ⟨pc', -, rfl⟩ | ⟨row, -, -, -, -, rfl⟩ := queueStatement_cases he
  · obtain ⟨htask, hchanges⟩ := upsertQueue_changes hupsert
    exact hquiet htask hchanges
  · exact hquiet rfl rfl
  · exact hquiet rfl rfl

/-- So does every statement of a purge. -/
theorem purgeStatement_writes {args : PurgeArgs} {pc : PurgePc}
    (hw : Task.Writes t (.purge args pc) T.events) (he : purgeStatement s t T args pc = some effect) :
    effect.task.Writes t (T.after effect).events := by
  have hwrite {effect' : Effect} {pc' : PurgePc} (htask : effect'.task = .purge args pc')
      (hchanges : ∀ c ∈ effect'.changes, (∃ id, c.event.event = .unlinked id) ∨
        ∃ id, c.event.event = .deleted id args) : effect'.task.Writes t (T.after effect').events := by
    rw [htask]
    intro e hmem
    rw [events_after] at hmem
    rcases List.mem_append.mp hmem with hold | hnew
    · exact hw e hold
    · obtain ⟨c, hc, rfl⟩ := List.mem_map.mp hnew
      exact hchanges c hc
  unfold purgeStatement at he
  split at he
  · cases he; exact hwrite rfl (by simp)
  · cases he; exact hwrite rfl (by simp)
  · split_ifs at he
    split at he
    · cases he; exact hwrite rfl (by simp)
    · cases he; exact hwrite rfl (by simp)
  · cases he; exact hwrite rfl (by simp)
  · split_ifs at he
    split at he
    · cases he; exact hwrite rfl (by simp)
    · cases he; exact hwrite rfl (by simp)
  · cases he

/-- The steps a transaction may take. -/
def Steps (s : State) (t : TxnId) (T : Txn) (effect : Effect) : Prop :=
  statement s t T = some effect ∨ scanStatement s t T = some effect ∨ ∃ job, enqueueMore T job = some effect

/-- Which points a program may move on to: its own, those of the next enqueue in its session, and for
a replay those of its insertion. -/
def Task.LeadsTo : Task → Task → Prop
  | .claimLoop args _, task => ∃ pc, task = .claimLoop args pc
  | .call x op _, task => ∃ pc, task = .call x op pc
  | .cancel id _, task => ∃ pc, task = .cancel id pc
  | .insert job _, task => (∃ pc, task = .insert job pc) ∨ ∃ next, task = .insert next .begin
  | .replay id force _, task => (∃ pc, task = .replay id force pc) ∨ ∃ job, task = .insert job .begin
  | .updateQueue args _, task => ∃ pc, task = .updateQueue args pc
  | .purge args _, task => ∃ pc, task = .purge args pc

/-- Only a claim round leads to a point of one. -/
theorem Task.LeadsTo.claimLoop {task : Task} {args : ClaimArgs} {pc' : ClaimPc}
    (h : task.LeadsTo (.claimLoop args pc')) : ∃ pc, task = .claimLoop args pc := by
  cases task with
  | claimLoop args' pc =>
    obtain ⟨_, heq⟩ := h
    obtain ⟨rfl, -⟩ := Task.claimLoop.inj heq
    exact ⟨pc, rfl⟩
  | insert job pc => rcases h with ⟨_, heq⟩ | ⟨_, heq⟩ <;> cases heq
  | replay id force pc => rcases h with ⟨_, heq⟩ | ⟨_, heq⟩ <;> cases heq
  | _ =>
    obtain ⟨_, heq⟩ := h
    cases heq

/-- Only a call leads to a point of that call. -/
theorem Task.LeadsTo.call {task : Task} {x : Execution} {op : CallOp} {pc' : CallPc}
    (h : task.LeadsTo (.call x op pc')) : ∃ pc, task = .call x op pc := by
  cases task with
  | call y op' pc =>
    obtain ⟨_, heq⟩ := h
    obtain ⟨rfl, rfl, -⟩ := Task.call.inj heq
    exact ⟨pc, rfl⟩
  | insert job pc => rcases h with ⟨_, heq⟩ | ⟨_, heq⟩ <;> cases heq
  | replay id force pc => rcases h with ⟨_, heq⟩ | ⟨_, heq⟩ <;> cases heq
  | _ =>
    obtain ⟨_, heq⟩ := h
    cases heq

/-- Only a batch of a purge leads to a point of one. -/
theorem Task.LeadsTo.purge {task : Task} {args : PurgeArgs} {pc' : PurgePc}
    (h : task.LeadsTo (.purge args pc')) : ∃ pc, task = .purge args pc := by
  cases task with
  | purge args' pc =>
    obtain ⟨_, heq⟩ := h
    obtain ⟨rfl, -⟩ := Task.purge.inj heq
    exact ⟨pc, rfl⟩
  | insert job pc => rcases h with ⟨_, heq⟩ | ⟨_, heq⟩ <;> cases heq
  | replay id force pc => rcases h with ⟨_, heq⟩ | ⟨_, heq⟩ <;> cases heq
  | _ =>
    obtain ⟨_, heq⟩ := h
    cases heq

/-- A scan goes on with its claim round. -/
theorem claimScan_leadsTo {args : ClaimArgs} {snapshot : JobTable} {todo : List QueueName}
    {picked : List JobId} {active : List ActiveQueue}
    (he : claimScan s t T args snapshot todo picked active = some effect) :
    ∃ pc, effect.task = .claimLoop args pc := by
  unfold claimScan at he
  repeat' split at he
  all_goals cases he
  all_goals exact ⟨_, rfl⟩

/-- Every step stays in its program. -/
theorem Steps.leadsTo (h : Steps s t T effect) : T.task.LeadsTo effect.task := by
  rcases h with he | he | ⟨job, he⟩
  · unfold statement at he
    split at he <;> rename_i htask <;> rw [htask]
    · unfold claimStatement at he
      split at he
      case h_11 => exact claimScan_leadsTo he
      all_goals
        repeat' split at he
        all_goals cases he
        all_goals exact ⟨_, rfl⟩
    · obtain ⟨pc', -, rfl⟩ | ⟨entry, -, -, -, -, rfl⟩ := callStatement_cases he <;> exact ⟨_, rfl⟩
    · obtain ⟨pc', -, rfl⟩ | ⟨entry, -, -, -, -, rfl⟩ := cancelStatement_cases he <;> exact ⟨_, rfl⟩
    · rcases insertStatement_cases he with he | he | ⟨pc', keyLock, queueShare, rfl⟩
      · exact .inl ⟨_, (upsertQueue_changes he).1⟩
      · obtain ⟨-, -, rfl⟩ := insertNew_cases he
        exact .inl ⟨_, rfl⟩
      · exact .inl ⟨_, rfl⟩
    · obtain ⟨-, ⟨pc', -, rfl⟩ | ⟨source, -, rfl⟩⟩ := replayStatement_cases he
      · exact .inl ⟨_, rfl⟩
      · exact .inr ⟨_, rfl⟩
    · obtain ⟨-, hupsert⟩ | ⟨pc', -, rfl⟩ | ⟨row, -, -, -, -, rfl⟩ := queueStatement_cases he
      · exact ⟨_, (upsertQueue_changes hupsert).1⟩
      · exact ⟨_, rfl⟩
      · exact ⟨_, rfl⟩
    · unfold purgeStatement at he
      repeat' split at he
      all_goals cases he
      all_goals exact ⟨_, rfl⟩
  · unfold scanStatement at he
    split at he
    · rename_i htask
      rw [htask]
      exact claimScan_leadsTo he
    · cases he
  · obtain ⟨done, pc, htask, -, -, rfl⟩ := enqueueMore_cases he
    rw [htask]
    exact .inr ⟨_, rfl⟩

/-- A decided call takes no further step. -/
theorem Steps.call_ne_finished (h : Steps s t T effect) {x : Execution} {op : CallOp} {pc : CallPc}
    (htask : T.task = .call x op pc) (updated : Bool) : pc ≠ .finished updated := by
  rintro rfl
  rcases h with he | he | ⟨job, he⟩
  · simp [statement, htask, callStatement] at he
  · simp [scanStatement, htask] at he
  · simp [enqueueMore, htask] at he

/-- Every step performs operations of its program. -/
theorem Steps.writes (h : Steps s t T effect) (hw : T.task.Writes t T.events) :
    effect.task.Writes t (T.after effect).events := by
  rcases h with he | he | ⟨job, he⟩
  · unfold statement at he
    split at he <;> rename_i htask <;> rw [htask] at hw
    · exact claimStatement_writes hw he
    · exact callStatement_writes hw he
    · exact cancelStatement_writes hw he
    · exact insertStatement_writes hw he
    · exact replayStatement_writes hw he
    · exact queueStatement_writes hw he
    · exact purgeStatement_writes hw he
  · unfold scanStatement at he
    split at he
    · rename_i htask
      rw [htask] at hw
      exact claimScan_writes hw he
    · cases he
  · obtain ⟨done, pc, htask, -, -, rfl⟩ := enqueueMore_cases he
    rw [htask] at hw
    rw [events_after_of_nil rfl]
    exact hw

/-- The program is about to start. -/
def Task.AtBegin : Task → Prop
  | .claimLoop _ pc => pc = .begin
  | .call _ _ pc => pc = .begin
  | .cancel _ pc => pc = .begin
  | .insert _ pc => pc = .begin
  | .replay _ _ pc => pc = .begin
  | .updateQueue _ pc => pc = .begin
  | .purge _ pc => pc = .begin

/-- A transaction begins with the begin of its program. -/
theorem Request.atBegin {request : Request} {task : Task} (h : request.task s = some task) : task.AtBegin := by
  cases request with
  | call i op =>
    obtain ⟨x, -, rfl⟩ := Option.map_eq_some_iff.mp h
    rfl
  | enqueue job =>
    simp only [Request.task] at h
    split_ifs at h
    obtain rfl : .insert job .begin = task := by simpa using h
    rfl
  | _ =>
    simp only [Request.task, Option.some.injEq] at h
    subst h
    rfl

/-- A begun transaction has performed nothing. -/
theorem Request.writes {request : Request} {task : Task} (h : request.task s = some task) :
    task.Writes t [] := by
  cases request with
  | call i op =>
    obtain ⟨x, -, rfl⟩ := Option.map_eq_some_iff.mp h
    rfl
  | enqueue job =>
    simp only [Request.task] at h
    split_ifs at h
    obtain rfl : .insert job .begin = task := by simpa using h
    simp [Task.Writes]
  | _ =>
    simp only [Request.task, Option.some.injEq] at h
    subst h
    simp [Task.Writes, ClaimPc.returned]

/-- A property of a transaction that holds when it begins and is kept by its own steps holds in
every reachable state. -/
theorem Reachable.txn_invariant {P : TxnId → Txn → Prop}
    (hbegin : ∀ s t now (request : Request) task, request.task s = some task → P t ⟨now, task, [], []⟩)
    (hstep : ∀ s t T effect, Inv s → s.txns t = some T → Steps s t T effect → P t T → P t (T.after effect))
    (h : Reachable s) {t : TxnId} {T : Txn} (hT : s.txns t = some T) : P t T := by
  obtain ⟨clock, hrun⟩ := h
  suffices hinv : Inv s ∧ ∀ t T, s.txns t = some T → P t T from hinv.2 t T hT
  refine ReachesUnder.invariant (I := fun s => Inv s ∧ ∀ t T, s.txns t = some T → P t T) hrun
    ⟨inv_init clock, fun _ _ hT => by cases hT⟩ ?_
  rintro s a s' ⟨hinv, hP⟩ - hs
  refine ⟨hinv.step hs, fun t T hT => ?_⟩
  rcases step_cases hs with ⟨elapsed, -, rfl⟩ | ⟨request, task, -, hr, rfl⟩ |
    ⟨u, U, effect, hU, he, rfl⟩ | ⟨u, U, -, hU, -, rfl⟩ | ⟨u, U, -, -, rfl⟩
  · exact hP t T hT
  · by_cases hne : t = s.nextTxn
    · obtain rfl : (⟨s.clock, task, [], []⟩ : Txn) = T := by simpa [State.open, hne] using hT
      exact hbegin s t s.clock request task hr
    · exact hP t T (by simpa [State.open, hne] using hT)
  · by_cases hne : t = u
    · subst hne
      obtain rfl : U.after effect = T := by simpa [State.perform] using hT
      refine hstep s t U effect hinv hU ?_ (hP t U hU)
      rcases he with ⟨-, he⟩ | ⟨-, he⟩ | ⟨job, -, he⟩
      · exact Or.inl he
      · exact Or.inr (Or.inl he)
      · exact Or.inr (Or.inr ⟨job, he⟩)
    · exact hP t T (by simpa [State.perform, hne] using hT)
  · exact hP t T (txns_close (t := u) hT).2
  · exact hP t T (txns_close hT).2

/-- In every reachable state an open transaction has performed the operations of its program. -/
theorem Reachable.writes (h : Reachable s) {t : TxnId} {T : Txn} (hT : s.txns t = some T) :
    T.task.Writes t T.events :=
  h.txn_invariant (P := fun t T => T.task.Writes t T.events) (fun _ _ _ _ _ hr => Request.writes hr)
    (fun _ _ _ _ _ _ he hw => he.writes hw) hT

/-- A transaction without operations leaves the job table as it is. -/
theorem Txn.view_eq_of_events (s : State) (hevents : T.events = []) : T.view s = s.jobs := by
  rw [Txn.view, List.map_eq_nil_iff.mp hevents]
  rfl

/-- The operations a program can have written: those of a claim round, the one of a call or a cancel
that took effect, insertions, or those of a purge. -/
theorem Task.Writes.mem_cases {task : Task} {events : List JobEvent} {e : JobEvent}
    (h : task.Writes t events) (hmem : e ∈ events) :
    (∃ args pc, task = .claimLoop args pc ∧ ((∃ id, e = .recovered id) ∨
        ∃ row, e = .claimed ⟨t, args.worker, row⟩ args.leaseSeconds)) ∨
      (∃ x op, task = .call x op (.finished true) ∧ e = op.event x ∧ events = [op.event x]) ∨
      (∃ id, e = .cancelled id) ∨ (∃ id job, e = .inserted id job) ∨ (∃ id, e = .unlinked id) ∨
      ∃ id args, e = .deleted id args := by
  cases task with
  | claimLoop args pc =>
    obtain ⟨ids, rfl⟩ := h
    refine .inl ⟨args, pc, rfl, ?_⟩
    rcases List.mem_append.mp hmem with hmem | hmem
    · obtain ⟨id, -, rfl⟩ := List.mem_map.mp hmem
      exact .inl ⟨id, rfl⟩
    · obtain ⟨row, -, rfl⟩ := List.mem_map.mp hmem
      exact .inr ⟨row, rfl⟩
  | call x op pc =>
    simp only [Task.Writes] at h
    split_ifs at h with hpc
    · subst h hpc
      exact .inr (.inl ⟨x, op, rfl, List.mem_singleton.mp hmem, rfl⟩)
    · simp [h] at hmem
  | cancel id pc =>
    simp only [Task.Writes] at h
    split_ifs at h
    · rw [h] at hmem
      exact .inr (.inr (.inl ⟨id, List.mem_singleton.mp hmem⟩))
    · simp [h] at hmem
  | insert job pc => exact .inr (.inr (.inr (.inl (h e hmem))))
  | replay id force pc =>
    obtain rfl : events = [] := h
    cases hmem
  | updateQueue args pc =>
    obtain rfl : events = [] := h
    cases hmem
  | purge args pc =>
    rcases h e hmem with hunlinked | ⟨id, hdeleted⟩
    · exact .inr (.inr (.inr (.inr (.inl hunlinked))))
    · exact .inr (.inr (.inr (.inr (.inr ⟨id, args, hdeleted⟩))))

/-- A claim has been written by a claim round that returns its row. -/
theorem Task.Writes.of_claimed {task : Task} {events : List JobEvent} {x : Execution} {leaseSeconds : Int}
    (h : task.Writes t events) (hmem : .claimed x leaseSeconds ∈ events) :
    ∃ args rows, task = .claimLoop args (.finished rows) ∧ x.job ∈ rows := by
  rcases h.mem_cases hmem with ⟨args, pc, rfl, -⟩ | ⟨y, op, -, heq, -⟩ | ⟨id, heq⟩ | ⟨id, job, heq⟩ |
    ⟨id, heq⟩ | ⟨id, args, heq⟩
  · obtain ⟨ids, rfl⟩ := h
    rcases List.mem_append.mp hmem with hrecovered | hreturned
    · obtain ⟨id, -, heq⟩ := List.mem_map.mp hrecovered
      cases heq
    · obtain ⟨row, hrow, heq⟩ := List.mem_map.mp hreturned
      obtain ⟨rfl, -⟩ := JobEvent.claimed.inj heq
      cases pc with
      | finished rows => exact ⟨args, rows, rfl, hrow⟩
      | _ => cases hrow
  · cases op <;> cases heq
  all_goals cases heq

/-- A heartbeat, a result or a return is the one operation of a call that took effect. -/
theorem Task.Writes.of_caller {task : Task} {events : List JobEvent} {e : JobEvent} {x : Execution}
    (h : task.Writes t events) (hmem : e ∈ events) (hcaller : e.caller = some x) :
    ∃ op, task = .call x op (.finished true) ∧ events = [op.event x] := by
  rcases h.mem_cases hmem with ⟨args, pc, -, ⟨id, rfl⟩ | ⟨row, rfl⟩⟩ | ⟨y, op, htask, rfl, hevents⟩ | ⟨id, rfl⟩ |
    ⟨id, job, rfl⟩ | ⟨id, rfl⟩ | ⟨id, args, rfl⟩
  · cases hcaller
  · cases hcaller
  · obtain rfl : y = x := by cases op <;> exact Option.some.inj hcaller
    exact ⟨op, htask, hevents⟩
  all_goals cases hcaller

/-- The operations of a purge. -/
def JobEvent.isPurge : JobEvent → Bool
  | .deleted _ _ | .unlinked _ => true
  | _ => false

/-- The operations of a purge have been written by one. -/
theorem Task.Writes.of_isPurge {task : Task} {events : List JobEvent} {e : JobEvent}
    (h : task.Writes t events) (hmem : e ∈ events) (he : e.isPurge = true) : ∃ args pc, task = .purge args pc := by
  cases task with
  | purge args pc => exact ⟨args, pc, rfl⟩
  | insert _ _ =>
    obtain ⟨_, _, rfl⟩ := h e hmem
    cases he
  | claimLoop _ _ =>
    obtain ⟨ids, rfl⟩ := h
    rcases List.mem_append.mp hmem with hmem | hmem
    · obtain ⟨_, -, rfl⟩ := List.mem_map.mp hmem
      cases he
    · obtain ⟨_, -, rfl⟩ := List.mem_map.mp hmem
      cases he
  | call x op pc =>
    obtain rfl : events = _ := h
    split_ifs at hmem
    · obtain rfl := List.mem_singleton.mp hmem
      cases op <;> cases he
    · cases hmem
  | cancel _ pc =>
    obtain rfl : events = _ := h
    split_ifs at hmem
    · obtain rfl := List.mem_singleton.mp hmem
      cases he
    · cases hmem
  | replay _ _ _ =>
    obtain rfl : events = [] := h
    cases hmem
  | updateQueue _ _ =>
    obtain rfl : events = [] := h
    cases hmem

/-- An insertion has been written by an enqueue or a replay. -/
theorem Task.Writes.of_inserted {task : Task} {events : List JobEvent} {id : JobId} {job : NewJob}
    (h : task.Writes t events) (hmem : .inserted id job ∈ events) : ∃ job pc, task = .insert job pc := by
  cases task with
  | insert job pc => exact ⟨job, pc, rfl⟩
  | purge args pc =>
    rcases h _ hmem with ⟨_, heq⟩ | ⟨_, heq⟩ <;> cases heq
  | claimLoop _ _ =>
    obtain ⟨ids, rfl⟩ := h
    simp at hmem
  | call x op pc =>
    obtain rfl : events = _ := h
    split_ifs at hmem
    · cases op <;> cases List.mem_singleton.mp hmem
    · cases hmem
  | cancel _ pc =>
    obtain rfl : events = _ := h
    split_ifs at hmem
    · cases List.mem_singleton.mp hmem
    · cases hmem
  | replay _ _ _ =>
    obtain rfl : events = [] := h
    cases hmem
  | updateQueue _ _ =>
    obtain rfl : events = [] := h
    cases hmem

end PgRelay