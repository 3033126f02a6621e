import PgRelay.PauseBarrier

/-!
# Queue settings

`update_queue` sets the pause of a queue, or its limit, or both, and leaves the other alone; a queue that
nobody has updated has the column defaults. Updates of one queue wait for each other at the row lock and
then write the newest version of the row. So of each setting the last committed update that sets it is in
force: no update is lost, also not when one pauses the queue while another one changes the limit.
-/

namespace PgRelay

open RowStore

variable {s s' : State} {t : TxnId} {T : Txn} {effect : Effect} {q : QueueName} {args : QueueArgs}

/-- What an operator can set of a queue. -/
structure Settable where
  paused : Bool
  concurrencyLimit : Int

/-- The settings of a queue, which are the column defaults as long as it has no row. -/
def settingsAt (queues : QueueTable) (q : QueueName) : Settable :=
  match queues.get q with
  | some row => ⟨row.paused, row.concurrencyLimit⟩
  | none => ⟨false, 8⟩

/-- The settings of a queue after an update. -/
def QueueArgs.apply (args : QueueArgs) (q : QueueName) (settable : Settable) : Settable :=
  if args.name = q then ⟨args.paused.getD settable.paused, args.concurrencyLimit.getD settable.concurrencyLimit⟩
  else settable

/-- The update that the transaction has finished. -/
def Task.updated : Task → Option QueueArgs
  | .updateQueue args .finished => some args
  | _ => none

/-- The settings of a queue with the update that the transaction has finished. -/
def Task.edit (task : Task) (q : QueueName) (settable : Settable) : Settable :=
  match task.updated with
  | some args => args.apply q settable
  | none => settable

/-- The settings of a queue are those of its row. -/
theorem settingsAt_congr {queues queues' : QueueTable} (h : queues'.get q = queues.get q) :
    settingsAt queues' q = settingsAt queues q := by
  simp only [settingsAt, h]

/-- What updates no queue edits none. -/
theorem Task.edit_of_none {task : Task} (h : task.updated = none) (q : QueueName) (settable : Settable) :
    task.edit q settable = settable := by
  simp only [Task.edit, h]

/-- What the last statement of `update_queue` writes. -/
theorem queueStatement_finished {args' : QueueArgs} {pc : QueuePc} (he : queueStatement s t T args' pc = some effect)
    (hfinished : effect.task = .updateQueue args .finished) :
    (args.paused = none ∧ args.concurrencyLimit = none) ∧ (T.queueView s).get args.name ≠ none ∧
        effect.queueWrites = [] ∨
      effect.queueLock = some args.name ∧ ∃ row, (T.queueView s).get args.name = some row ∧
        0 < args.concurrencyLimit.getD row.concurrencyLimit ∧ effect.queueWrites = [{ row with
          paused := args.paused.getD row.paused
          concurrencyLimit := args.concurrencyLimit.getD row.concurrencyLimit
          updatedAt := T.now }] := by
  obtain ⟨-, hupsert⟩ | ⟨pc', hpc, rfl⟩ | ⟨row, -, -, hrow, hlimit, rfl⟩ := queueStatement_cases he
  · obtain ⟨-, rfl⟩ | ⟨-, -, rfl⟩ := upsertQueue_cases hupsert <;> cases hfinished
  · rcases hpc with ⟨-, rfl | rfl | ⟨rfl, hnone, hrow⟩⟩ | ⟨-, rfl⟩
    · cases hfinished
    · cases hfinished
    · obtain ⟨rfl, -⟩ := Task.updateQueue.inj hfinished
      exact .inl ⟨hnone, hrow, rfl⟩
    · cases hfinished
  · obtain ⟨rfl, -⟩ := Task.updateQueue.inj hfinished
    exact .inr ⟨rfl, row, hrow, hlimit, rfl⟩

/-- A step that finishes an update writes it to the newest row, or the update sets nothing. -/
theorem Steps.writes_of_updated (he : Steps s t T effect) (htask : effect.task.updated = some args) :
    (args.paused = none ∧ args.concurrencyLimit = none) ∧ (T.queueView s).get args.name ≠ none ∧
        effect.queueWrites = [] ∨
      effect.queueLock = some args.name ∧ ∃ row, (T.queueView s).get args.name = some row ∧
        0 < args.concurrencyLimit.getD row.concurrencyLimit ∧ effect.queueWrites = [{ row with
          paused := args.paused.getD row.paused
          concurrencyLimit := args.concurrencyLimit.getD row.concurrencyLimit
          updatedAt := T.now }] := by
  have hfinished : effect.task = .updateQueue args .finished := by
    unfold Task.updated at htask
    split at htask
    · rename_i hpc
      rw [hpc, Option.some.inj htask]
    · cases htask
  have hleads := he.leadsTo
  rw [hfinished] at hleads
  cases hT : T.task with
  | updateQueue args' pc =>
    rcases he with he | he | ⟨job, he⟩
    · simp only [statement, hT] at he
      exact queueStatement_finished he hfinished
    · simp [scanStatement, hT] at he
    · simp [enqueueMore, hT] at he
  | insert | replay =>
    rw [hT] at hleads
    rcases hleads with ⟨_, heq⟩ | ⟨_, heq⟩ <;> cases heq
  | _ =>
    rw [hT] at hleads
    obtain ⟨_, heq⟩ := hleads
    cases heq

/-- A step that finishes no update writes no queue, or it creates one that is missing. -/
theorem Steps.writes_of_not_updated (he : Steps s t T effect) (htask : effect.task.updated = none) :
    effect.queueWrites = [] ∨ ∃ name, (T.queueView s).get name = none ∧
      effect.queueWrites = [newQueue T.now name] := by
  cases he.queueMove with
  | quiet hwrites => exact .inl hwrites
  | create hnone hwrites => exact .inr ⟨_, hnone, hwrites⟩
  | update hrow hfinished => simp [hfinished, Task.updated] at htask

/-- A transaction that has finished an update takes no further step. -/
theorem Steps.updated_eq_none (he : Steps s t T effect) : T.task.updated = none := by
  unfold Task.updated
  split
  · rename_i args htask
    rcases he with he | he | ⟨job, he⟩
    · simp [statement, htask, queueStatement] at he
    · simp [scanStatement, htask] at he
    · simp [enqueueMore, htask] at he
  · rfl

/-- An update that sets nothing. -/
theorem QueueArgs.apply_of_none (h : args.paused = none ∧ args.concurrencyLimit = none) (q : QueueName)
    (settable : Settable) : args.apply q settable = settable := by
  simp [QueueArgs.apply, h.1, h.2]

/-- What an open transaction makes of the settings: nothing but the update that it has finished, whose row
it holds if the update sets anything. -/
structure EditsOk (s : State) (t : TxnId) (T : Txn) : Prop where
  settings : ∀ q, settingsAt (T.queueView s) q = T.task.edit q (settingsAt s.queues q)
  positive : ∀ w ∈ T.queueWrites, 0 < w.concurrencyLimit
  known : ∀ args, T.task.updated = some args → (T.queueView s).get args.name ≠ none
  held : ∀ args, T.task.updated = some args → s.queueLocks args.name = some t ∨
    args.paused = none ∧ args.concurrencyLimit = none

/-- A step that finishes no update leaves the settings alone. -/
theorem EditsOk.step_of_none (h : EditsOk s t T) (he : Steps s t T effect) (hnone : effect.task.updated = none) :
    EditsOk (s.perform t T effect) t (T.after effect) := by
  have hbefore (q : QueueName) : settingsAt (T.queueView s) q = settingsAt s.queues q := by
    rw [h.settings, Task.edit_of_none he.updated_eq_none]
  have hupdated : (T.after effect).task.updated = none := hnone
  refine ⟨fun q => ?_, fun w hw => ?_, fun args hargs => ?_, fun args hargs => ?_⟩
  · rw [queueView_perform, Task.edit_of_none hupdated]
    rcases he.writes_of_not_updated hnone with hwrites | ⟨name, hmissing, hwrites⟩
    · rw [hwrites]
      exact hbefore q
    · rw [hwrites]
      refine Eq.trans ?_ (hbefore q)
      by_cases hname : name = q
      · subst hname
        simp [settingsAt, Table.get_put, newQueue, hmissing]
      · exact settingsAt_congr (by simp [Table.get_put, newQueue, hname])
  · rcases List.mem_append.mp hw with hold | hnew
    · exact h.positive w hold
    · rcases he.writes_of_not_updated hnone with hwrites | ⟨name, -, hwrites⟩ <;> rw [hwrites] at hnew
      · cases hnew
      · rw [List.mem_singleton.mp hnew]
        exact (by decide : (0 : Int) < 8)
  · cases hupdated.symm.trans hargs
  · cases hupdated.symm.trans hargs

/-- A step that finishes an update makes that of the settings which the update says. -/
theorem EditsOk.step_of_some (h : EditsOk s t T) (he : Steps s t T effect)
    (hsome : effect.task.updated = some args) : EditsOk (s.perform t T effect) t (T.after effect) := by
  have hbefore (q : QueueName) : settingsAt (T.queueView s) q = settingsAt s.queues q := by
    rw [h.settings, Task.edit_of_none he.updated_eq_none]
  have hupdated : (T.after effect).task.updated = some args := hsome
  have hedit (q : QueueName) (settable : Settable) :
      (T.after effect).task.edit q settable = args.apply q settable := by
    simp only [Task.edit, hupdated]
  rcases he.writes_of_updated hsome with ⟨hnone, hthere, hwrites⟩ | ⟨hlock, row, hrow, hpositive, hwrites⟩
  · refine ⟨fun q => ?_, fun w hw => ?_, fun args' hargs => ?_, fun args' hargs => ?_⟩
    · rw [queueView_perform, hwrites, hedit, QueueArgs.apply_of_none hnone]
      exact hbefore q
    · exact h.positive w (by simpa [Txn.after, hwrites] using hw)
    · obtain rfl := Option.some.inj (hupdated.symm.trans hargs)
      rw [queueView_perform, hwrites]
      exact hthere
    · obtain rfl := Option.some.inj (hupdated.symm.trans hargs)
      exact .inr hnone
  · have hname : row.name = args.name := Table.key_of_get hrow
    have hsettings : settingsAt (T.queueView s) args.name = ⟨row.paused, row.concurrencyLimit⟩ := by
      simp only [settingsAt, hrow]
    refine ⟨fun q => ?_, fun w hw => ?_, fun args' hargs => ?_, fun args' hargs => .inl ?_⟩
    · rw [queueView_perform, hwrites, hedit]
      change _ = args.apply q (settingsAt s.queues q)
      rw [← hbefore q]
      by_cases hq : args.name = q
      · subst hq
        rw [hsettings]
        simp [settingsAt, QueueArgs.apply, Table.get_put, hname]
      · rw [QueueArgs.apply, if_neg hq]
        exact settingsAt_congr (by simp [Table.get_put, hname, hq])
    · rcases List.mem_append.mp hw with hold | hnew
      · exact h.positive w hold
      · rw [hwrites] at hnew
        rw [List.mem_singleton.mp hnew]
        exact hpositive
    · obtain rfl := Option.some.inj (hupdated.symm.trans hargs)
      rw [queueView_perform, hwrites]
      simp [Table.get_put, hname]
    · obtain rfl := Option.some.inj (hupdated.symm.trans hargs)
      change takeLock s.queueLocks t effect.queueLock args.name = some t
      rw [hlock]
      exact takeLock_self _ _ _

/-- The others change no settings that the transaction is about to change. -/
theorem EditsOk.elsewhere (h : EditsOk s t T) (hreach' : Reachable s') (hT' : s'.txns t = some T)
    (he : Elsewhere s s' t T) : EditsOk s' t T where
  settings q := by
    by_cases hlock : s.queueLocks q = some t
    · have hview : (T.queueView s').get q = (T.queueView s).get q :=
        Table.get_foldl_put_congr _ (he.queues q hlock)
      rw [settingsAt_congr hview, settingsAt_congr (he.queues q hlock)]
      exact h.settings q
    · have hfree : s'.queueLocks q ≠ some t := fun hheld => hlock ((he.queueLocks q).mp hheld)
      rw [settingsAt_congr (hreach'.queueView_of_free hT' hfree)]
      unfold Task.edit
      split
      · rename_i args hupdated
        rcases h.held args hupdated with hheld | hnone
        · have hne : args.name ≠ q := by
            rintro rfl
            exact hlock hheld
          rw [QueueArgs.apply, if_neg hne]
        · rw [QueueArgs.apply_of_none hnone]
      · rfl
  positive := h.positive
  known args hargs := Table.get_foldl_put_mono _ (he.known args.name) (h.known args hargs)
  held args hargs := (h.held args hargs).imp_left (he.queueLocks args.name).mpr

/-- Every open transaction edits the settings as its update says. -/
theorem Reachable.editsOk (h : Reachable s) : ∀ t T, s.txns t = some T → EditsOk s t T := by
  obtain ⟨clock, hrun⟩ := h
  refine ReachesUnder.txn_rule ?_ ?_ ?_ hrun
  · intro s request task _ _ hr
    have hnone : task.updated = none := by
      unfold Task.updated
      split
      · cases request with
        | enqueue job =>
          simp only [Request.task] at hr
          split_ifs at hr
          cases hr
        | call i op =>
          obtain ⟨x, -, hx⟩ := Option.map_eq_some_iff.mp hr
          cases hx
        | _ => cases hr
      · rfl
    refine ⟨fun q => ?_, fun w hw => absurd hw List.not_mem_nil, fun args hargs => ?_, fun args hargs => ?_⟩
    · rw [Task.edit_of_none hnone]
      rfl
    · cases hnone.symm.trans hargs
    · cases hnone.symm.trans hargs
  · intro s t T a effect _ _ _ he hold
    cases hupdated : effect.task.updated with
    | none => exact hold.step_of_none he.steps hupdated
    | some args => exact hold.step_of_some he.steps hupdated
  · intro s a s' t T hreach _ hs _ hT' he hold
    exact hold.elsewhere (hreach.tail hs) hT' he

/-! ## Last write wins -/

/-- An observer notes the updates in the order of their commits. -/
def noteUpdates (updates : List QueueArgs) (s : State) (a : Action) (_ : State) : List QueueArgs :=
  match a with
  | .commit t => updates ++ ((s.txns t).bind fun T => T.task.updated).toList
  | _ => updates

/-- The settings that the updates of a queue leave, one after the other. -/
def settingsAfter (updates : List QueueArgs) (q : QueueName) : Settable :=
  updates.foldl (fun settable args => args.apply q settable) ⟨false, 8⟩

/-- What a list of updates has last set one setting of a queue to. -/
def lastSet {α : Type} (setting : QueueArgs → Option α) (default : α) (updates : List QueueArgs) (q : QueueName) : α :=
  ((updates.filter fun args => args.name = q).filterMap setting).getLast?.getD default

/-- One update after the others sets what it says and leaves what it does not say. -/
theorem lastSet_snoc {α : Type} (setting : QueueArgs → Option α) (default : α) (updates : List QueueArgs)
    (args : QueueArgs) (q : QueueName) : lastSet setting default (updates ++ [args]) q =
      if args.name = q then (setting args).getD (lastSet setting default updates q)
      else lastSet setting default updates q := by
  by_cases hname : args.name = q
  · cases hset : setting args <;> simp [lastSet, List.filter_append, hname, hset]
  · simp [lastSet, List.filter_append, hname]

/-- Of each setting the last update that sets it is in force. -/
theorem settingsAfter_eq (updates : List QueueArgs) (q : QueueName) : settingsAfter updates q =
    ⟨lastSet QueueArgs.paused false updates q, lastSet QueueArgs.concurrencyLimit 8 updates q⟩ := by
  induction updates using List.reverseRecOn with
  | nil => rfl
  | append_singleton updates args ih =>
    rw [lastSet_snoc, lastSet_snoc, settingsAfter, List.foldl_append]
    change args.apply q (settingsAfter updates q) = _
    rw [ih, QueueArgs.apply]
    split <;> rfl

/-- Every limit lets at least one job run. -/
theorem Reachable.limit_pos (h : Reachable s) : ∀ q row, s.queues.get q = some row → 0 < row.concurrencyLimit := by
  obtain ⟨clock, hrun⟩ := h
  suffices hinv : Reachable s ∧ ∀ q row, s.queues.get q = some row → 0 < row.concurrencyLimit from hinv.2
  refine ReachesUnder.invariant
    (I := fun s => Reachable s ∧ ∀ q row, s.queues.get q = some row → 0 < row.concurrencyLimit) hrun
    ⟨⟨clock, .refl⟩, fun _ _ hrow => by cases hrow⟩ ?_
  rintro s a s' ⟨hreach, hpos⟩ - hs
  refine ⟨hreach.tail hs, ?_⟩
  rcases step_cases hs with ⟨elapsed, -, rfl⟩ | ⟨request, task, -, -, rfl⟩ | ⟨u, U, effect, -, -, rfl⟩ |
    ⟨u, U, -, hU, -, rfl⟩ | ⟨u, U, -, -, rfl⟩
  · exact hpos
  · exact hpos
  · exact hpos
  · intro q row hrow
    rcases Table.get_foldl_put_cases hrow with hold | hnew
    · exact hpos q row hold
    · exact (hreach.editsOk u U hU).positive row hnew
  · exact hpos

/-- The committed queues show the updates, and every limit lets at least one job run. -/
structure UpdatesShown (s : State) (updates : List QueueArgs) : Prop where
  settings : ∀ q, settingsAt s.queues q = settingsAfter updates q
  positive : ∀ q row, s.queues.get q = some row → 0 < row.concurrencyLimit
  known : ∀ args ∈ updates, s.queues.get args.name ≠ none

/-- What a transaction sees of the settings, and would commit. -/
theorem UpdatesShown.view {updates : List QueueArgs} (h : UpdatesShown s updates) (hreach : Reachable s)
    (hT : s.txns t = some T) (q : QueueName) :
    settingsAt (T.queueView s) q = settingsAfter (updates ++ T.task.updated.toList) q := by
  rw [(hreach.editsOk t T hT).settings, h.settings, Task.edit, settingsAfter, settingsAfter, List.foldl_append]
  cases T.task.updated <;> rfl

/-- Every action keeps the rows in step with the noted updates. -/
theorem UpdatesShown.step {updates : List QueueArgs} {a : Action} (h : UpdatesShown s updates)
    (hreach : Reachable s) (hs : step s a = some s') : UpdatesShown s' (noteUpdates updates s a s') := by
  rcases step_cases hs with ⟨elapsed, rfl, rfl⟩ | ⟨request, task, rfl, hr, rfl⟩ |
    ⟨u, U, effect, hU, he, rfl⟩ | ⟨u, U, rfl, hU, -, rfl⟩ | ⟨u, U, rfl, -, rfl⟩
  · exact ⟨h.settings, h.positive, h.known⟩
  · exact ⟨h.settings, h.positive, h.known⟩
  · rcases he with ⟨rfl, -⟩ | ⟨rfl, -⟩ | ⟨job, rfl, -⟩ <;> exact ⟨h.settings, h.positive, h.known⟩
  · simp only [noteUpdates, hU, Option.bind_some]
    refine ⟨h.view hreach hU, (hreach.tail hs).limit_pos, fun args hargs => ?_⟩
    · rcases List.mem_append.mp hargs with hold | hnew
      · exact Table.get_foldl_put_ne_none _ (h.known args hold)
      · exact (hreach.editsOk u U hU).known args (Option.mem_toList.mp hnew)
  · exact ⟨h.settings, h.positive, h.known⟩

/-- The settings of the queues, given the committed updates: of each setting of a queue the last update that
sets it is in force, also on the row that an update is about to return. -/
structure LastWriteWins (s : State) (updates : List QueueArgs) : Prop where
  committed : ∀ q row, s.queues.get q = some row → row.paused = lastSet QueueArgs.paused false updates q ∧
    row.concurrencyLimit = lastSet QueueArgs.concurrencyLimit 8 updates q ∧ 0 < row.concurrencyLimit
  known : ∀ args ∈ updates, s.queues.get args.name ≠ none
  returned : ∀ t T args, s.txns t = some T → T.task = .updateQueue args .finished → ∃ row,
    (T.queueView s).get args.name = some row ∧
      row.paused = lastSet QueueArgs.paused false (updates ++ [args]) args.name ∧
      row.concurrencyLimit = lastSet QueueArgs.concurrencyLimit 8 (updates ++ [args]) args.name

/-- Concurrent updates of the queues act one after the other, in the order of their commits: none of them
is lost, and none brings back a setting that another one has changed. -/
theorem last_write_wins {clock : Timestamp} {updates : List QueueArgs}
    (h : Reaches (observed step noteUpdates) (State.init clock, []) (s, updates)) : LastWriteWins s updates := by
  obtain ⟨hreach, hshown⟩ : Reachable s ∧ UpdatesShown s updates := by
    refine h.observed_invariant (fun _ _ => True) (I := fun s updates => Reachable s ∧ UpdatesShown s updates)
      ⟨⟨clock, .refl⟩, fun _ => rfl, fun _ _ hrow => (by cases hrow), fun _ hargs => (by cases hargs)⟩ ?_
    rintro s updates a s' ⟨hreach, hshown⟩ - hs
    exact ⟨hreach.tail hs, hshown.step hreach hs⟩
  refine ⟨fun q row hrow => ?_, hshown.known, fun t T args hT htask => ?_⟩
  · have hsettings := hshown.settings q
    rw [settingsAfter_eq, settingsAt, hrow] at hsettings
    obtain ⟨hpaused, hlimit⟩ := Settable.mk.inj hsettings
    exact ⟨hpaused, hlimit, hshown.positive q row hrow⟩
  · have hupdated : T.task.updated = some args := by rw [htask]; rfl
    obtain ⟨row, hrow⟩ := Option.ne_none_iff_exists'.mp ((hreach.editsOk t T hT).known args hupdated)
    have hsettings := hshown.view hreach hT args.name
    rw [hupdated, Option.toList_some, settingsAfter_eq, settingsAt, hrow] at hsettings
    obtain ⟨hpaused, hlimit⟩ := Settable.mk.inj hsettings
    exact ⟨row, hrow, hpaused, hlimit⟩

/-- One transaction pauses a queue while another one changes its limit; both see the row unpaused first. -/
def overlappingUpdates : List Action :=
  transaction 0 (.enqueue (handlerJob "mail" 2)) 5 ++
    [.begin (.updateQueue ⟨"mail", some true, none⟩), .begin (.updateQueue ⟨"mail", none, some 3⟩)] ++
    [.advance 1, .advance 2, .advance 1, .advance 2, .advance 1, .commit 1, .advance 2, .commit 2]

/-- One update pauses the queue and another one sets its limit, and both stay. -/
theorem last_write_wins_overlappingUpdates : ∃ s updates,
    run (observed step noteUpdates) (State.init 0, []) overlappingUpdates = some (s, updates) ∧
      (s.queues.get "mail").map (fun row => (row.paused, row.concurrencyLimit)) = some (true, 3) ∧
      LastWriteWins s updates := by
  have hrun : (run (observed step noteUpdates) (State.init 0, []) overlappingUpdates).map
      (fun sh => (sh.1.queues.get "mail").map fun row => (row.paused, row.concurrencyLimit)) =
        some (some (true, 3)) := by
    decide +kernel
  obtain ⟨⟨s, updates⟩, hs, hrow⟩ := Option.map_eq_some_iff.mp hrun
  exact ⟨s, updates, hs, hrow, last_write_wins (reaches_of_run hs)⟩

end PgRelay
