import PgRelay.Lifecycle
import PgRelay.Purge

/-!
# Commits in order

READ COMMITTED promises little about transactions that run at the same time: each statement may see the
commits of others, and rows are tested one by one. The machine here is the opposite. It has only the
committed jobs and their log, and in one step it runs all the writes of one transaction, each tested
against the table that the writes before it have left. Every run of the concurrent system looks like a run
of this machine, in the order of the commits.
-/

namespace PgRelay

open RowStore

variable {s s' : State} {t : TxnId} {T : Txn} {effect : Effect}

/-- The committed jobs and what the workers have started, with the log of the committed operations. -/
structure Committed where
  jobs : JobTable
  executions : List Execution
  log : List LogEntry

/-- The committed part of a state. -/
def State.committed (s : State) : Committed := ⟨s.jobs, s.executions, s.log⟩

/-- One step of the machine: a transaction that has not committed before runs its program to the end and
writes what that program writes. Every write is legal on the table as it stands at its turn, and every call
of an execution is one of an execution whose claim has been committed. -/
inductive CommitsAlone : Committed → Committed → Prop
  | commit {jobs : JobTable} {executions : List Execution} {log : List LogEntry} (t : TxnId) (now : Timestamp)
      (task : Task)
      (changes : List (Change LogEntry JobEntry)) (hfresh : ∀ op ∈ log, op.txn ≠ t)
      (hdone : task.committable = true) (hwrites : task.Writes t (changes.map fun c => c.event.event))
      (hstamped : ∀ c ∈ changes, c.event.txn = t ∧ c.event.now = now)
      (hlegal : jobDynamics.Consistent jobs changes) (hlog : LogOk (log ++ changes.map Change.event)) :
      CommitsAlone ⟨jobs, executions, log⟩ ⟨jobDynamics.applyChanges jobs changes,
        executions ++ task.started t, log ++ changes.map Change.event⟩

/-! ## Who has written what -/

/-- A step stamps its writes with its transaction. -/
def Stamped (t : TxnId) (now : Timestamp) (changes : List (Change LogEntry JobEntry)) : Prop :=
  ∀ c ∈ changes, c.event.txn = t ∧ c.event.now = now

/-- Where nothing is written, nothing lacks the stamp. -/
theorem stamped_nil {now : Timestamp} : Stamped t now [] := fun _ hc => absurd hc List.not_mem_nil

/-- A change with the name and the time of its transaction carries the stamp. -/
theorem stamped_singleton {now : Timestamp} {event : JobEvent} {version : Option JobEntry} :
    Stamped t now [⟨⟨t, now, event⟩, version⟩] := by
  intro c hc
  rw [List.mem_singleton.mp hc]
  exact ⟨rfl, rfl⟩

/-- The changes of a claim carry the stamp. -/
theorem stamped_claimChange {args : ClaimArgs} (entries : List JobEntry) :
    Stamped t T.now (entries.map (claimChange t T.now args)) := by
  intro c hc
  obtain ⟨entry, -, rfl⟩ := List.mem_map.mp hc
  exact ⟨rfl, rfl⟩

/-- The change of a call carries the stamp. -/
theorem stamped_callChange {x : Execution} {entry : JobEntry} {op : CallOp} :
    Stamped t T.now [callChange t T.now x entry op] := by
  cases op <;> exact stamped_singleton

/-- The statements of a claim round write changes with the stamp of their transaction. -/
theorem claimStatement_stamped {args : ClaimArgs} {pc : ClaimPc}
    (he : claimStatement s t T args pc = some effect) : Stamped t T.now effect.changes := by
  unfold claimStatement claimScan at he
  repeat' split at he
  all_goals cases he
  all_goals first
    | exact stamped_nil
    | exact stamped_singleton
    | exact stamped_claimChange _

/-- So does its scan. -/
theorem claimScan_stamped {args : ClaimArgs} {snapshot : JobTable} {todo : List QueueName} {picked : List JobId}
    {active : List ActiveQueue} (he : claimScan s t T args snapshot todo picked active = some effect) :
    Stamped t T.now effect.changes := by
  unfold claimScan at he
  repeat' split at he
  all_goals cases he
  all_goals exact stamped_nil

/-- Every step of every transaction stamps its writes. -/
theorem Steps.stamped (he : Steps s t T effect) : Stamped t T.now effect.changes := by
  rcases he with he | he | ⟨job, he⟩
  · unfold statement at he
    split at he
    · exact claimStatement_stamped he
    · obtain ⟨pc', -, rfl⟩ | ⟨entry, -, -, -, -, rfl⟩ := callStatement_cases he
      · exact stamped_nil
      · exact stamped_callChange
    · obtain ⟨pc', -, rfl⟩ | ⟨entry, -, -, -, -, rfl⟩ := cancelStatement_cases he
      · exact stamped_nil
      · exact stamped_singleton
    · rcases insertStatement_cases he with he | he | ⟨pc', keyLock, queueShare, rfl⟩
      · rw [(upsertQueue_changes he).2]
        exact stamped_nil
      · obtain ⟨-, -, rfl⟩ := insertNew_cases he
        exact stamped_singleton
      · exact stamped_nil
    · obtain ⟨-, ⟨pc', -, rfl⟩ | ⟨source, -, rfl⟩⟩ := replayStatement_cases he <;> exact stamped_nil
    · obtain ⟨-, hupsert⟩ | ⟨pc', -, rfl⟩ | ⟨row, -, -, -, -, rfl⟩ := queueStatement_cases he
      · rw [(upsertQueue_changes hupsert).2]
        exact stamped_nil
      · exact stamped_nil
      · exact stamped_nil
    · unfold purgeStatement at he
      repeat' split at he
      all_goals cases he
      all_goals first | exact stamped_nil | exact stamped_singleton
  · unfold scanStatement at he
    split at he
    · exact claimScan_stamped he
    · cases he
  · obtain ⟨done, pc, -, -, -, rfl⟩ := enqueueMore_cases he
    exact stamped_nil

/-- What an open transaction has written bears its stamp. -/
theorem Reachable.stamped (h : Reachable s) (hT : s.txns t = some T) : Stamped t T.now T.changes := by
  refine h.txn_invariant (P := fun t T => Stamped t T.now T.changes) (fun _ _ _ _ _ _ => stamped_nil)
    (fun s t T effect _ _ he hold c hc => ?_) hT
  rcases List.mem_append.mp hc with hmem | hnew
  · exact hold c hmem
  · exact he.stamped c hnew

/-- The transactions of the log have been begun, and have ended. -/
def LogEnded (s : State) : Prop := ∀ op ∈ s.log, op.txn < s.nextTxn ∧ s.txns op.txn = none

/-- In every reachable state the log is that of ended transactions. -/
theorem Reachable.logEnded (h : Reachable s) : LogEnded s := by
  obtain ⟨clock, hrun⟩ := h
  suffices hinv : Reachable s ∧ LogEnded s from hinv.2
  refine ReachesUnder.invariant (I := fun s => Reachable s ∧ LogEnded s) hrun
    ⟨⟨clock, .refl⟩, fun _ hop => by cases hop⟩ ?_
  rintro s a s' ⟨hreach, hold⟩ - hs
  refine ⟨hreach.tail hs, fun op hop => ?_⟩
  rcases step_cases hs with ⟨elapsed, -, rfl⟩ | ⟨request, task, -, hr, rfl⟩ |
    ⟨u, U, effect, hU, he, rfl⟩ | ⟨u, U, -, hU, -, rfl⟩ | ⟨u, U, -, hU, rfl⟩
  · exact hold op hop
  · obtain ⟨hlt, hnone⟩ := hold op hop
    exact ⟨Nat.lt_succ_of_lt hlt, by simpa [State.open, hlt.ne] using hnone⟩
  · obtain ⟨hlt, hnone⟩ := hold op hop
    refine ⟨hlt, ?_⟩
    have hne : op.txn ≠ u := by
      rintro rfl
      cases hnone.symm.trans hU
    simpa [State.perform, hne] using hnone
  · have hclosed {t : TxnId} (ht : t = u ∨ s.txns t = none) : (s.commit u U).txns t = none := by
      rcases eq_or_ne t u with rfl | hne
      · simp [State.commit, State.close]
      · simpa [State.commit, State.close, hne] using ht.resolve_left hne
    rcases List.mem_append.mp hop with hlogged | hnew
    · exact ⟨(hold op hlogged).1, hclosed (.inr (hold op hlogged).2)⟩
    · obtain ⟨c, hc, rfl⟩ := List.mem_map.mp hnew
      rw [(hreach.stamped hU c hc).1]
      exact ⟨hreach.inv.lt_nextTxn hU, hclosed (.inl rfl)⟩
  · obtain ⟨hlt, hnone⟩ := hold op hop
    refine ⟨hlt, ?_⟩
    have hne : op.txn ≠ u := by
      rintro rfl
      cases hnone.symm.trans hU
    simpa [State.close, hne] using hnone

/-! ## The simulation -/

/-- An action of the concurrent system is a step of the machine if it is a commit, and else none. -/
theorem Reachable.commitsAlone {a : Action} (h : Reachable s) (hs : step s a = some s') :
    s'.committed = s.committed ∨ CommitsAlone s.committed s'.committed := by
  rcases step_cases hs with ⟨elapsed, -, rfl⟩ | ⟨request, task, -, hr, rfl⟩ |
    ⟨u, U, effect, hU, he, rfl⟩ | ⟨u, U, -, hU, hdone, rfl⟩ | ⟨u, U, -, -, rfl⟩
  · exact .inl rfl
  · exact .inl rfl
  · exact .inl rfl
  · right
    have hok := h.inv.txn u U hU
    refine .commit u U.now U.task U.changes (fun op hop heq => ?_) hdone (h.writes hU) (h.stamped hU) hok.consistent
      hok.logOk
    have hended := (h.logEnded op hop).2
    rw [heq] at hended
    cases hended.symm.trans hU
  · exact .inl rfl

/-- Every run of the concurrent system, from any state that it can reach, is a run of the machine that
commits one transaction at a time: the same jobs, with the same log. -/
theorem commits_in_order (h : Reachable s) (hrun : Reaches step s s') :
    Relation.ReflTransGen CommitsAlone s.committed s'.committed := by
  induction hrun with
  | refl => exact .refl
  | @tail mid last hprefix hlast ih =>
    obtain ⟨a, -, hs⟩ := hlast
    rcases (h.trans hprefix).commitsAlone hs with hsame | hcommits
    · rw [hsame]
      exact ih
    · exact ih.tail hcommits

/-- Of two overlapping batches of a purge the second finds its rows deleted and writes nothing. -/
theorem commits_in_order_overlappingPurges : ∃ s, run step (State.init 0) overlappingPurges = some s ∧
    (s.log.map LogEntry.txn).dedup = [0, 1, 2, 3, 4, 5, 6, 7] ∧
      Relation.ReflTransGen CommitsAlone (State.init 0).committed s.committed := by
  have hrun : (run step (State.init 0) overlappingPurges).map (fun s => (s.log.map LogEntry.txn).dedup) =
      some [0, 1, 2, 3, 4, 5, 6, 7] := by
    decide +kernel
  obtain ⟨s, hs, htxns⟩ := Option.map_eq_some_iff.mp hrun
  exact ⟨s, hs, htxns, commits_in_order ⟨0, .refl⟩ (reaches_of_run hs)⟩

end PgRelay
