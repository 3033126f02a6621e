import PgRelay.JobRows
import PgRelay.RowStore.Liveness
import Mathlib.Data.Prod.Lex
import Mathlib.Algebra.Order.Ring.Nat

/-!
# Every transaction comes to an end

A transaction of the program runs a fixed sequence of statements, and each of them visits rows that its
snapshot has found. What the others commit in the meantime changes which of these rows it takes, but it
adds none to them. So whatever the others do, a transaction takes only finitely many steps; only a caller
that goes on enqueueing keeps one open forever.
-/

namespace PgRelay

open RowStore

variable {s s' : State} {t : TxnId} {T : Txn} {effect : Effect}

/-- How many phases a transaction has still before it. -/
def Task.phase : Task → ℕ
  | .claimLoop _ .begin | .replay _ _ .begin => 6
  | .claimLoop _ (.recovering _ _) | .insert _ .begin => 5
  | .claimLoop _ .recovered | .insert _ .queueUpserted => 4
  | .claimLoop _ (.lockingQueues _) | .cancel _ .begin | .insert _ .queueRead | .updateQueue _ .begin
  | .purge _ .begin => 3
  | .claimLoop _ .queuesLocked | .call _ _ .begin | .cancel _ .checked | .insert _ .inserting
  | .updateQueue _ .upserted | .purge _ (.deleting _ _) => 2
  | .claimLoop _ (.claiming _ _ _ _) | .call _ _ .matched | .cancel _ .matched | .insert _ .queueChecked
  | .insert _ .conflicted | .updateQueue _ .matched | .purge _ (.cascading _ _) => 1
  | _ => 0

/-- How many rows it has to visit in the present phase, if it began at `now`. -/
def Task.rows (now : Timestamp) : Task → ℕ
  | .claimLoop _ (.recovering todo _) => todo.length
  | .claimLoop _ (.lockingQueues todo) => todo.length
  | .claimLoop _ (.claiming snapshot todo active _) =>
    (todo.map fun q => (claimCandidates now snapshot q).length + 2).sum +
      (active.map fun a => a.candidates.length + 1).sum
  | .purge _ (.deleting todo _) => todo.length
  | .purge _ (.cascading todo _) => todo.length
  | _ => 0

/-- What a transaction has still to do: the phases first, then the rows. -/
def Txn.left (T : Txn) : ℕ ×ₗ ℕ := toLex (T.task.phase, T.task.rows T.now)

/-- A step into a later phase. -/
theorem left_of_phase (h : effect.task.phase < T.task.phase) : (T.after effect).left < T.left :=
  Prod.Lex.toLex_lt_toLex.mpr (.inl h)

/-- A step within a phase that leaves fewer rows. -/
theorem left_of_rows (hphase : effect.task.phase = T.task.phase)
    (h : effect.task.rows T.now < T.task.rows T.now) : (T.after effect).left < T.left :=
  Prod.Lex.toLex_lt_toLex.mpr (.inr ⟨hphase, h⟩)

/-- Visiting a candidate leaves fewer of them. -/
theorem left_claimScan {args : ClaimArgs} {snapshot : JobTable} {todo : List QueueName} {picked : List JobId}
    {active : List ActiveQueue} (hT : T.task = .claimLoop args (.claiming snapshot todo active picked))
    (he : claimScan s t T args snapshot todo picked active = some effect) : (T.after effect).left < T.left := by
  unfold claimScan at he
  repeat' split at he
  all_goals cases he
  all_goals
    refine left_of_rows (by rw [hT]; rfl) ?_
    simp only [hT, Task.rows, List.map_cons, List.sum_cons, List.length_cons]
    omega

/-- Every step of a claim round leaves less to do. -/
theorem left_claimStatement {args : ClaimArgs} {pc : ClaimPc} (hT : T.task = .claimLoop args pc)
    (he : claimStatement s t T args pc = some effect) : (T.after effect).left < T.left := by
  unfold claimStatement at he
  split at he
  · cases he
    exact left_of_phase (by simp [hT, Task.phase])
  · cases he
    exact left_of_phase (by simp [hT, Task.phase])
  · cases he
    exact left_of_phase (by simp [hT, Task.phase])
  · split_ifs at he
    · split at he
      · cases he
        exact left_of_rows (by rw [hT]; rfl) (by simp [hT, Task.rows])
      · split_ifs at he <;> cases he <;> exact left_of_rows (by rw [hT]; rfl) (by simp [hT, Task.rows])
    · cases he
      exact left_of_rows (by rw [hT]; rfl) (by simp [hT, Task.rows])
  · split_ifs at he
    cases he
    exact left_of_phase (by simp [hT, Task.phase])
  · cases he
    exact left_of_phase (by simp [hT, Task.phase])
  · split_ifs at he
    cases he
    exact left_of_rows (by rw [hT]; rfl) (by simp [hT, Task.rows])
  · cases he
    exact left_of_phase (by simp [hT, Task.phase])
  · rename_i snapshot q todo active picked
    split_ifs at he
    split at he
    · cases he
      refine left_of_rows (by rw [hT]; rfl) ?_
      simp only [hT, Task.rows, List.map_cons, List.sum_cons]
      omega
    · rename_i row hrow
      obtain rfl : row.name = q := Table.key_of_get hrow
      split_ifs at he
      · cases he
        refine left_of_rows (by rw [hT]; rfl) ?_
        simp only [hT, Task.rows, List.map_cons, List.sum_cons]
        omega
      · -- The queue becomes active with the candidates that it has in the snapshot.
        cases he
        refine left_of_rows (by rw [hT]; rfl) ?_
        simp only [hT, Task.rows, activateQueue, List.map_cons, List.map_append, List.map_nil, List.sum_cons,
          List.sum_append, List.sum_nil]
        omega
  · cases he
    exact left_of_phase (by simp [hT, Task.phase])
  · exact left_claimScan hT he
  · cases he

/-- Every step of a purge leaves less to do. -/
theorem left_purgeStatement {args : PurgeArgs} {pc : PurgePc} (hT : T.task = .purge args pc)
    (he : purgeStatement s t T args pc = some effect) : (T.after effect).left < T.left := by
  unfold purgeStatement at he
  split at he
  · cases he
    exact left_of_phase (by simp [hT, Task.phase])
  · cases he
    exact left_of_phase (by simp [hT, Task.phase])
  · split_ifs at he
    split at he <;> cases he <;> exact left_of_rows (by rw [hT]; rfl) (by simp [hT, Task.rows])
  · cases he
    exact left_of_phase (by simp [hT, Task.phase])
  · split_ifs at he
    split at he <;> cases he <;> exact left_of_rows (by rw [hT]; rfl) (by simp [hT, Task.rows])
  · cases he

/-- Every step but the next enqueue of a session leaves its transaction less to do. -/
theorem left_statement (he : statement s t T = some effect) : (T.after effect).left < T.left := by
  unfold statement at he
  split at he
  · exact left_claimStatement ‹_› he
  · rename_i x op pc hT
    refine left_of_phase ?_
    obtain ⟨pc', ⟨rfl, rfl | rfl⟩ | ⟨rfl, rfl⟩, rfl⟩ | ⟨entry, rfl, -, -, -, rfl⟩ := callStatement_cases he <;>
      simp [hT, Task.phase]
  · rename_i id pc hT
    refine left_of_phase ?_
    obtain ⟨pc', ⟨rfl, rfl | rfl | rfl⟩ | ⟨rfl, rfl | rfl⟩ | ⟨rfl, rfl⟩, rfl⟩ | ⟨entry, rfl, -, -, -, rfl⟩ :=
        cancelStatement_cases he <;>
      simp [hT, Task.phase]
  · rename_i job pc hT
    unfold insertStatement upsertQueue insertNew at he
    repeat' split at he
    all_goals cases he
    all_goals exact left_of_phase (by simp [hT, Task.phase])
  · rename_i id force pc hT
    refine left_of_phase ?_
    obtain ⟨rfl, ⟨pc', rfl | rfl, rfl⟩ | ⟨source, -, rfl⟩⟩ := replayStatement_cases he <;>
      simp [hT, Task.phase]
  · rename_i args pc hT
    refine left_of_phase ?_
    obtain ⟨rfl, hupsert⟩ | ⟨pc', ⟨rfl, rfl | rfl | ⟨rfl, -, -⟩⟩ | ⟨rfl, rfl⟩, rfl⟩ | ⟨row, rfl, -, -, -, rfl⟩ :=
      queueStatement_cases he
    · obtain ⟨-, rfl⟩ | ⟨-, -, rfl⟩ := upsertQueue_cases hupsert <;> simp [hT, Task.phase]
    all_goals simp [hT, Task.phase]
  · exact left_purgeStatement ‹_› he

/-- A scan leaves less to do. -/
theorem left_scanStatement (he : scanStatement s t T = some effect) : (T.after effect).left < T.left := by
  unfold scanStatement at he
  split at he
  · exact left_claimScan ‹_› he
  · cases he

/-- The run lets the transaction take a step. -/
def ownStep (t : TxnId) (a : Action) : Prop := a = .advance t ∨ a = .scan t

/-- An action of others leaves an open transaction as it is or ends it for good. -/
theorem Reachable.txn_of_other {a : Action} (h : Reachable s) (hs : step s a = some s') (hT : s.txns t = some T)
    (hown : ¬ ownStep t a) (hmore : ∀ job, a ≠ .enqueueMore t job) :
    s'.txns t = some T ∨ t < s'.nextTxn ∧ s'.txns t = none := by
  have hlt := h.inv.lt_nextTxn hT
  rcases step_cases hs with ⟨elapsed, -, rfl⟩ | ⟨request, task, -, hr, rfl⟩ |
    ⟨u, U, effect, hU, he, rfl⟩ | ⟨u, U, -, hU, hdone, rfl⟩ | ⟨u, U, -, -, rfl⟩
  · exact .inl hT
  · exact .inl (by simpa [State.open, hlt.ne] using hT)
  · have hne : t ≠ u := by
      rintro rfl
      rcases he with ⟨ha, -⟩ | ⟨ha, -⟩ | ⟨job, ha, -⟩
      · exact hown (.inl ha)
      · exact hown (.inr ha)
      · exact hmore job ha
    exact .inl (by simpa [State.perform, hne] using hT)
  · rcases eq_or_ne t u with rfl | hne
    · exact .inr ⟨hlt, by simp [State.commit, State.close]⟩
    · exact .inl (by simpa [State.commit, State.close, hne] using hT)
  · rcases eq_or_ne t u with rfl | hne
    · exact .inr ⟨hlt, by simp [State.close]⟩
    · exact .inl (by simpa [State.close, hne] using hT)

/-- A transaction that has ended does not come back. -/
theorem ended_of_step {a : Action} (hs : step s a = some s') (hlt : t < s.nextTxn) (hnone : s.txns t = none) :
    t < s'.nextTxn ∧ s'.txns t = none := by
  rcases step_cases hs with ⟨elapsed, -, rfl⟩ | ⟨request, task, -, hr, rfl⟩ |
    ⟨u, U, effect, hU, he, rfl⟩ | ⟨u, U, -, hU, hdone, rfl⟩ | ⟨u, U, -, -, rfl⟩
  · exact ⟨hlt, hnone⟩
  · exact ⟨Nat.lt_succ_of_lt hlt, by simpa [State.open, hlt.ne] using hnone⟩
  · have hne : t ≠ u := by
      rintro rfl
      cases hnone.symm.trans hU
    exact ⟨hlt, by simpa [State.perform, hne] using hnone⟩
  · rcases eq_or_ne t u with rfl | hne
    · exact ⟨hlt, by simp [State.commit, State.close]⟩
    · exact ⟨hlt, by simpa [State.commit, State.close, hne] using hnone⟩
  · rcases eq_or_ne t u with rfl | hne
    · exact ⟨hlt, by simp [State.close]⟩
    · exact ⟨hlt, by simpa [State.close, hne] using hnone⟩

/-- An infinite run of the system, with its actions. -/
structure InfiniteRun where
  state : ℕ → State
  action : ℕ → Action
  start : Reachable (state 0)
  performed : ∀ n, step (state n) (action n) = some (state (n + 1))

/-- Every state of an infinite run is reachable. -/
theorem InfiniteRun.reachable (run : InfiniteRun) (n : ℕ) : Reachable (run.state n) := by
  induction n with
  | zero => exact run.start
  | succ n ih => exact ih.tail (run.performed n)

/-- In every infinite run, whatever the others do, a transaction takes finitely many steps of its own, unless
its caller goes on enqueueing in it. -/
theorem finitely_many_steps (run : InfiniteRun) (t : TxnId) (hmore : ∀ n job, run.action n ≠ .enqueueMore t job) :
    {n | ownStep t (run.action n)}.Finite := by
  have hwf : WellFounded fun T T' : Txn => T.left < T'.left := InvImage.wf Txn.left wellFounded_lt
  refine finite_ownSteps (fun n => (run.state n).txns t) hwf (fun n hown => ?_) fun n T hT hown => ?_
  · have hs := run.performed n
    rcases hown with ha | ha <;> rw [ha] at hs
    · obtain ⟨T, hT, hs⟩ := Option.bind_eq_some_iff.mp hs
      obtain ⟨effect, he, hs⟩ := Option.map_eq_some_iff.mp hs
      exact ⟨T, T.after effect, hT, by simp [← hs, State.perform], left_statement he⟩
    · obtain ⟨T, hT, hs⟩ := Option.bind_eq_some_iff.mp hs
      obtain ⟨effect, he, hs⟩ := Option.map_eq_some_iff.mp hs
      exact ⟨T, T.after effect, hT, by simp [← hs, State.perform], left_scanStatement he⟩
  · rcases (run.reachable n).txn_of_other (run.performed n) hT hown (hmore n) with hsame | hended
    · exact .inl hsame
    · -- Once the transaction has ended, no later action begins it again.
      refine .inr fun m hm => ?_
      suffices hgone : t < (run.state m).nextTxn ∧ (run.state m).txns t = none from hgone.2
      induction m, hm using Nat.le_induction with
      | base => exact hended
      | succ m _ ih => exact ended_of_step (run.performed m) ih.1 ih.2

/-- The run of some actions, after which nothing more happens. -/
def idleAfter (acts : List Action) (h : (run step (State.init 0) acts).isSome = true) : InfiniteRun where
  state n := stateAfter 0 (acts.take n)
  action n := acts.getD n (.tick 0)
  start := reachable_stateAfter 0 _
  performed n := by
    obtain ⟨s, hs⟩ := Option.isSome_iff_exists.mp (isSome_run_take h n)
    by_cases hn : n < acts.length
    · obtain ⟨s', hs'⟩ := Option.isSome_iff_exists.mp (isSome_run_take h (n + 1))
      have hlast := hs'
      rw [run_take_succ _ hn, hs, Option.bind_some] at hlast
      simpa [stateAfter, hs, hs', hn] using hlast
    · have hlength : acts.length ≤ n := Nat.le_of_not_lt hn
      rw [List.take_of_length_le hlength, List.take_of_length_le (hlength.trans (Nat.le_succ n)),
        List.getD_eq_getElem?_getD, List.getElem?_eq_none hlength]
      simp [step]

/-- An enqueue waits for a claim round in its queue, and both commit. -/
def interleavedRun : List Action :=
  transaction 0 (.enqueue (handlerJob "mail" 2)) 5 ++
    .begin (.claimLoop ⟨"w", ["mail"], 1, 60, 10⟩) :: List.replicate 4 (.advance 1) ++
    .begin (.enqueue (handlerJob "mail" 2)) :: List.replicate 3 (.advance 2) ++
    List.replicate 6 (.advance 1) ++ .commit 1 :: List.replicate 2 (.advance 2) ++ [.commit 2]

/-- The steps of the enqueue, which end with this run. -/
theorem finitely_many_steps_interleavedRun : ∃ run : InfiniteRun,
    (∀ n, run.action n = interleavedRun.getD n (.tick 0)) ∧ ownStep 2 (run.action 23) ∧
      {n | ownStep 2 (run.action n)}.Finite := by
  have hrun : (run step (State.init 0) interleavedRun).isSome = true := by decide +kernel
  refine ⟨idleAfter interleavedRun hrun, fun _ => rfl, .inl rfl, finitely_many_steps _ 2 fun n job hmore => ?_⟩
  have hmem : interleavedRun.getD n (.tick 0) ∈ .tick 0 :: interleavedRun := by
    rw [List.getD_eq_getElem?_getD]
    cases hn : interleavedRun[n]? with
    | none => exact List.mem_cons_self
    | some a => exact List.mem_cons_of_mem _ (List.mem_of_getElem? hn)
  rw [show interleavedRun.getD n (.tick 0) = _ from hmore] at hmem
  simp [interleavedRun, transaction] at hmem

end PgRelay
