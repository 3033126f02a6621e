import PgRelay.Isolation
import Mathlib.Data.String.Basic

/-!
# Claims that wait for each other

Both statements of a claim lock the rows of the unpaused queues in the order of their names, so that
claims do not wait for each other in a circle. The order holds within a statement only: a queue that
is resumed or created between the two statements is locked by the second one, even if its name comes
before that of a queue which the first one has locked. Without such a queue the locks of a claim are
taken in name order throughout, and there is no deadlock.
-/

namespace PgRelay

open RowStore

variable {s : State} {t : TxnId} {T : Txn} {effect : Effect}

/-- The queue whose row a claim locks next. -/
def Task.nextQueue : Task → Option QueueName
  | .claimLoop _ (.lockingQueues (q :: _)) | .claimLoop _ (.claiming _ (q :: _) _ _) => some q
  | _ => none

/-- The transaction is a claim round. -/
def Task.isClaim : Task → Bool
  | .claimLoop _ _ => true
  | _ => false

/-- A claim has to wait for a queue row that another claim has locked. -/
def WaitsFor (s : State) (t t' : TxnId) : Prop :=
  t ≠ t' ∧ ∃ T T' q, s.txns t = some T ∧ s.txns t' = some T' ∧ T'.task.isClaim = true ∧
    T.task.nextQueue = some q ∧ s.queueLocks q = some t'

/-- Some claims wait for each other in a circle. -/
def Deadlocked (s : State) : Prop := ∃ t, Relation.TransGen (WaitsFor s) t t

/-- The queues that the claim statement is going to lock and that its transaction does not hold yet
come after all those that it holds. -/
def locksInOrder (s : State) : Action → Bool
  | .advance t => (s.txns t).all fun T =>
    match T.task with
    | .claimLoop args .queuesLocked => (unpausedQueues args.queueNames (T.queueView s)).all fun q =>
        s.queueLocks q = some t ||
          s.queues.rows.all fun row => s.queueLocks row.name ≠ some t || decide (row.name < q)
    | _ => true
  | _ => true

/-- Where a claim stands with its queue locks: the queues that it still has to lock come in name
order, and after all those that it holds. -/
def ClaimPc.InOrder (s : State) (t : TxnId) : ClaimPc → Prop
  | .begin | .recovering _ _ | .recovered => ∀ q, s.queueLocks q ≠ some t
  | .lockingQueues todo => todo.Pairwise (· < ·) ∧ ∀ q ∈ todo, s.queues.get q ≠ none ∧
      ∀ held, s.queueLocks held = some t → held < q
  | .queuesLocked | .finished _ => True
  | .claiming _ todo _ _ => todo.Pairwise (· < ·) ∧ ∀ q ∈ todo, s.queueLocks q ≠ some t →
      ∀ held, s.queueLocks held = some t → held < q

/-- The queue locks of a claim: they are on existing rows and have been taken in order. -/
def LocksInOrder (s : State) (t : TxnId) (T : Txn) : Prop :=
  ∀ args pc, T.task = .claimLoop args pc →
    (∀ q, s.queueLocks q = some t → s.queues.get q ≠ none) ∧ pc.InOrder s t

/-- A statement visits its queues in the order of their names. -/
theorem pairwise_unpausedQueues (names : List QueueName) (queues : QueueTable) :
    (unpausedQueues names queues).Pairwise (· < ·) := by
  have hsorted : (unpausedQueues names queues).Pairwise (· ≤ ·) := List.pairwise_insertionSort _ _
  have hnodup : (unpausedQueues names queues).Pairwise (· ≠ ·) := nodup_unpausedQueues names queues
  exact (hsorted.and hnodup).imp fun h => lt_of_le_of_ne h.1 h.2

/-- The queues a statement visits exist. -/
theorem get_ne_none_of_mem_unpausedQueues {names : List QueueName} {queues : QueueTable} {q : QueueName}
    (h : q ∈ unpausedQueues names queues) : queues.get q ≠ none := by
  unfold unpausedQueues at h
  obtain ⟨row, hrow, rfl⟩ := List.mem_map.mp ((List.mem_insertionSort _).mp h)
  simp [Table.get_of_mem (List.mem_filter.mp hrow).1]

/-- After a step a transaction holds the queue locks it had and the one it has taken. -/
theorem held_of_perform {q : QueueName} (h : (s.perform t T effect).queueLocks q = some t) :
    s.queueLocks q = some t ∨ effect.queueLock = some q := by
  change takeLock s.queueLocks t effect.queueLock q = some t at h
  cases hlock : effect.queueLock with
  | none =>
    rw [hlock] at h
    exact .inl h
  | some k =>
    by_cases hk : q = k
    · exact .inr (congrArg some hk.symm)
    · exact .inl (by simpa [hlock, takeLock, hk] using h)

/-- During the recovery a claim holds no queue lock. -/
theorem ClaimPc.inOrder_of_isRecovery {pc : ClaimPc} (h : pc.isRecovery = true) :
    pc.InOrder s t ↔ ∀ q, s.queueLocks q ≠ some t := by
  cases pc <;> first | rfl | cases h

/-- The condition on the begin of a claim statement, for the queues the transaction holds. -/
theorem lt_of_locksInOrder {args : ClaimArgs} (hT : s.txns t = some T)
    (hpc : T.task = .claimLoop args .queuesLocked) (hok : locksInOrder s (.advance t) = true)
    {q held : QueueName} (hq : q ∈ unpausedQueues args.queueNames (T.queueView s))
    (hfree : s.queueLocks q ≠ some t) (hheld : s.queueLocks held = some t)
    (hknown : s.queues.get held ≠ none) : held < q := by
  simp only [locksInOrder, hT, Option.all_some, hpc, List.all_eq_true, Bool.or_eq_true,
    decide_eq_true_eq] at hok
  obtain ⟨row, hrow⟩ := Option.ne_none_iff_exists'.mp hknown
  obtain ⟨hmem, hname⟩ := (Table.get_eq_some_iff _ _ _).mp hrow
  have hlt := ((hok q hq).resolve_left hfree) row hmem
  rw [hname] at hlt
  exact hlt.resolve_left fun hne => hne hheld

/-- Inside the claim statement the next queue is locked in order. -/
theorem ClaimPc.InOrder.next {snapshot : JobTable} {q : QueueName} {todo : List QueueName}
    {active active' : List ActiveQueue} {picked : List JobId}
    (h : ClaimPc.InOrder s t (.claiming snapshot (q :: todo) active picked))
    (hlock : ∀ q', effect.queueLock = some q' → q' = q) :
    ClaimPc.InOrder (s.perform t T effect) t (.claiming snapshot todo active' picked) := by
  obtain ⟨hsorted, htodo⟩ := h
  obtain ⟨hfirst, hrest⟩ := List.pairwise_cons.mp hsorted
  refine ⟨hrest, fun q' hq' hfree held hheld => ?_⟩
  have hfree' : s.queueLocks q' ≠ some t := fun hlocked => hfree (takeLock_of_held _ hlocked)
  rcases held_of_perform hheld with hold | hnew
  · exact htodo q' (List.mem_cons_of_mem _ hq') hfree' held hold
  · rw [hlock held hnew]
    exact hfirst q' hq'

/-- Every step of a claim that finds no earlier queue keeps the order. -/
theorem LocksInOrder.step {a : Action} (h : LocksInOrder s t T) (hreach : Reachable s)
    (hT : s.txns t = some T) (hok : locksInOrder s a = true) (he : StepsBy s t T a effect) :
    LocksInOrder (s.perform t T effect) t (T.after effect) := by
  intro args pc' hpc'
  obtain ⟨pc, hpc, hmove⟩ := he.steps.claimMove_of_task hpc'
  obtain ⟨hknown, hinOrder⟩ := h args pc hpc
  have hview := hreach.queueView_of_claim hT hpc
  have hquiet (hlock : effect.queueLock = none) : (s.perform t T effect).queueLocks = s.queueLocks := by
    simp [State.perform, hlock, takeLock]
  have hknown' (hlock : ∀ q, effect.queueLock = some q → s.queues.get q ≠ none) (q : QueueName)
      (hq : (s.perform t T effect).queueLocks q = some t) : s.queues.get q ≠ none := by
    rcases held_of_perform hq with hheld | hnew
    · exact hknown q hheld
    · exact hlock q hnew
  cases hmove with
  | recover hrecovery hrecovery' htask hlock =>
    obtain rfl := (Task.claimLoop.inj (htask.symm.trans hpc')).2
    rw [ClaimPc.inOrder_of_isRecovery hrecovery] at hinOrder
    rw [ClaimPc.inOrder_of_isRecovery hrecovery', hquiet hlock]
    exact ⟨fun q hq => absurd hq (hinOrder q), hinOrder⟩
  | beginLocking =>
    obtain rfl := (Task.claimLoop.inj hpc').2
    rw [hview] at *
    have hnone : ∀ q, s.queueLocks q ≠ some t := hinOrder
    refine ⟨fun q hq => absurd hq (hnone q), pairwise_unpausedQueues _ _, fun q hq => ?_⟩
    exact ⟨get_ne_none_of_mem_unpausedQueues hq, fun held hheld => absurd hheld (hnone held)⟩
  | @lock q todo hfree =>
    obtain rfl := (Task.claimLoop.inj hpc').2
    obtain ⟨hsorted, htodo⟩ := hinOrder
    obtain ⟨hfirst, hrest⟩ := List.pairwise_cons.mp hsorted
    refine ⟨hknown' fun q' hq' => ?_, hrest, fun q' hq' => ⟨(htodo q' (List.mem_cons_of_mem _ hq')).1, ?_⟩⟩
    · obtain rfl := Option.some.inj hq'
      exact (htodo q List.mem_cons_self).1
    · intro held hheld
      rcases held_of_perform hheld with hold | hnew
      · exact (htodo q' (List.mem_cons_of_mem _ hq')).2 held hold
      · obtain rfl := Option.some.inj hnew
        exact hfirst q' hq'
  | endLocking =>
    obtain rfl := (Task.claimLoop.inj hpc').2
    exact ⟨hknown, trivial⟩
  | beginClaiming =>
    obtain rfl := (Task.claimLoop.inj hpc').2
    refine ⟨hknown, pairwise_unpausedQueues _ _, fun q hq hfree held hheld => ?_⟩
    obtain ⟨rfl, -⟩ | ⟨-, hscan⟩ | ⟨job, -, hmore⟩ := he
    · exact lt_of_locksInOrder hT hpc hok hq hfree hheld (hknown held hheld)
    · simp [scanStatement, hpc] at hscan
    · simp [enqueueMore, hpc] at hmore
  | skipQueue hlock hexists =>
    obtain rfl := (Task.claimLoop.inj hpc').2
    refine ⟨hknown' fun q' hq' => ?_, ClaimPc.InOrder.next hinOrder hlock⟩
    rw [hlock q' hq', ← hview]
    exact hexists.resolve_left fun hnone => by simp [hnone] at hq'
  | activate hrow hpaused =>
    obtain rfl := (Task.claimLoop.inj hpc').2
    refine ⟨hknown' fun q' hq' => ?_, ClaimPc.InOrder.next hinOrder fun q' hq' => (Option.some.inj hq').symm⟩
    obtain rfl := Option.some.inj hq'
    simp [← hview, hrow]
  | skipJob hactive =>
    obtain rfl := (Task.claimLoop.inj hpc').2
    exact ⟨hknown, hinOrder⟩
  | pick hactive hget hqueue =>
    obtain rfl := (Task.claimLoop.inj hpc').2
    exact ⟨hknown, hinOrder⟩
  | claim hentries =>
    obtain rfl := (Task.claimLoop.inj hpc').2
    exact ⟨hknown, trivial⟩

/-- The order does not depend on what the others do. -/
theorem LocksInOrder.elsewhere {s' : State} (h : LocksInOrder s t T) (he : Elsewhere s s' t T) :
    LocksInOrder s' t T := by
  intro args pc hpc
  obtain ⟨hknown, hinOrder⟩ := h args pc hpc
  refine ⟨fun q hq => he.known q (hknown q ((he.queueLocks q).mp hq)), ?_⟩
  cases pc with
  | begin | recovering | recovered => exact fun q hq => hinOrder q ((he.queueLocks q).mp hq)
  | lockingQueues todo =>
    refine ⟨hinOrder.1, fun q hq => ⟨he.known q (hinOrder.2 q hq).1, fun held hheld => ?_⟩⟩
    exact (hinOrder.2 q hq).2 held ((he.queueLocks held).mp hheld)
  | queuesLocked | finished => trivial
  | claiming snapshot todo active picked =>
    refine ⟨hinOrder.1, fun q hq hfree held hheld => ?_⟩
    exact hinOrder.2 q hq (fun hlocked => hfree ((he.queueLocks q).mpr hlocked)) held
      ((he.queueLocks held).mp hheld)

/-- In a run whose claims find no earlier queue all queue locks are taken in order. -/
theorem locksInOrder_of_reaches {clock : Timestamp}
    (h : ReachesUnder step (fun s a => locksInOrder s a = true) (State.init clock) s) :
    ∀ t T, s.txns t = some T → LocksInOrder s t T := by
  refine ReachesUnder.txn_rule ?_ ?_ ?_ h
  · intro s request task hreach _ hr args pc hpc
    obtain rfl : pc = .begin := request_claim_begin (hr.trans (congrArg some hpc))
    have hnone (q : QueueName) : s.queueLocks q ≠ some s.nextTxn := fun hq =>
      hreach.inv.queueLocks q _ hq (hreach.inv.unborn _ le_rfl)
    exact ⟨fun q hq => absurd hq (hnone q), hnone⟩
  · exact fun s t T a effect hreach hT hok he hold => hold.step hreach hT hok he
  · intro s a s' t T _ _ _ _ _ he hold
    exact hold.elsewhere he

/-! ## No circle -/

/-- What waits is an open transaction. -/
theorem WaitsFor.txn {t' : TxnId} (h : WaitsFor s t t') : ∃ T, s.txns t = some T := by
  obtain ⟨-, T, -, -, hT, -⟩ := h
  exact ⟨T, hT⟩

/-- A claim that is waited for and waits itself waits for a later queue. -/
theorem lt_nextQueue_of_waits (h : ∀ t T, s.txns t = some T → LocksInOrder s t T) {t₁ t₂ t₃ : TxnId}
    (h₁ : WaitsFor s t₁ t₂) (h₂ : WaitsFor s t₂ t₃) {T₁ T₂ : Txn} (hT₁ : s.txns t₁ = some T₁)
    (hT₂ : s.txns t₂ = some T₂) : ∃ q₁ q₂, T₁.task.nextQueue = some q₁ ∧ T₂.task.nextQueue = some q₂ ∧ q₁ < q₂ := by
  obtain ⟨-, U₁, -, q₁, hU₁, -, -, hnext₁, hlock₁⟩ := h₁
  obtain ⟨hne, U₂, -, q₂, hU₂, -, -, hnext₂, hlock₂⟩ := h₂
  obtain rfl := Option.some.inj (hU₁.symm.trans hT₁)
  obtain rfl := Option.some.inj (hU₂.symm.trans hT₂)
  refine ⟨q₁, q₂, hnext₁, hnext₂, ?_⟩
  have hfree : s.queueLocks q₂ ≠ some t₂ := fun hheld => hne (Option.some.inj (hheld.symm.trans hlock₂))
  unfold Task.nextQueue at hnext₂
  split at hnext₂
  · rename_i htask
    obtain rfl := Option.some.inj hnext₂
    obtain ⟨-, -, htodo⟩ := h t₂ U₂ hU₂ _ _ htask
    exact (htodo _ List.mem_cons_self).2 q₁ hlock₁
  · rename_i htask
    obtain rfl := Option.some.inj hnext₂
    obtain ⟨-, -, htodo⟩ := h t₂ U₂ hU₂ _ _ htask
    exact htodo _ List.mem_cons_self hfree q₁ hlock₁
  · cases hnext₂

/-- Along a chain of waiting claims the queues they wait for come later and later. -/
theorem lt_nextQueue_of_chain (h : ∀ t T, s.txns t = some T → LocksInOrder s t T) {t t' t'' : TxnId}
    (hchain : Relation.TransGen (WaitsFor s) t t') (hlast : WaitsFor s t' t'') {T T' : Txn}
    (hT : s.txns t = some T) (hT' : s.txns t' = some T') :
    ∃ q q', T.task.nextQueue = some q ∧ T'.task.nextQueue = some q' ∧ q < q' := by
  induction hchain generalizing t'' T' with
  | single hwaits => exact lt_nextQueue_of_waits h hwaits hlast hT hT'
  | tail _ hwaits ih =>
    obtain ⟨U, hU⟩ := hwaits.txn
    obtain ⟨q, middle, hq, hmiddle, hlt⟩ := ih hwaits hU
    obtain ⟨middle', q', hmiddle', hq', hlt'⟩ := lt_nextQueue_of_waits h hwaits hlast hU hT'
    obtain rfl := Option.some.inj (hmiddle.symm.trans hmiddle')
    exact ⟨q, q', hq, hq', hlt.trans hlt'⟩

/-- In every run in which no claim statement finds a queue that comes before the locked ones, claims
never wait for each other in a circle. -/
theorem not_deadlocked {clock : Timestamp}
    (h : ReachesUnder step (fun s a => locksInOrder s a = true) (State.init clock) s) : ¬ Deadlocked s := by
  rintro ⟨t, hcircle⟩
  obtain ⟨t', hfirst, -⟩ := Relation.TransGen.head'_iff.mp hcircle
  obtain ⟨T, hT⟩ := hfirst.txn
  obtain ⟨q, q', hq, hq', hlt⟩ := lt_nextQueue_of_chain (locksInOrder_of_reaches h) hcircle hfirst hT hT
  obtain rfl := Option.some.inj (hq.symm.trans hq')
  exact lt_irrefl _ hlt

/-- What a claim waits for and who holds it, as far as one can compute it. -/
def waitsFor (s : State) (t t' : TxnId) : Bool :=
  t ≠ t' && (s.txns t').any (fun T' => T'.task.isClaim) &&
    (s.txns t).any fun T => T.task.nextQueue.any fun q => s.queueLocks q = some t'

/-- The executable test of a wait is right. -/
theorem waitsFor_of_eq_true {t t' : TxnId} (h : waitsFor s t t' = true) : WaitsFor s t t' := by
  simp only [waitsFor, Bool.and_eq_true, Option.any_eq_true_iff_get, decide_eq_true_eq] at h
  obtain ⟨⟨hne, hsome', hclaim⟩, hsome, hnext, hlock⟩ := h
  exact ⟨hne, _, _, _, Option.eq_some_of_isSome hsome, Option.eq_some_of_isSome hsome', hclaim,
    Option.eq_some_of_isSome hnext, hlock⟩

/-- Two claims over the same two queues, one of which waits for the other. -/
def waitingRun : List Action :=
  transaction 0 (.updateQueue ⟨"a", some false, none⟩) 3 ++
    transaction 1 (.updateQueue ⟨"b", some false, none⟩) 3 ++
    .begin (.claimLoop ⟨"v", ["a", "b"], 1, 60, 10⟩) :: List.replicate 7 (.advance 2) ++
    .begin (.claimLoop ⟨"w", ["a", "b"], 1, 60, 10⟩) :: List.replicate 3 (.advance 3)

/-- Two claims that name their queues in one order: the second one waits for the first one, and that is all. -/
theorem not_deadlocked_waitingRun : ∃ s, runChecked step locksInOrder (State.init 0) waitingRun = some s ∧
    WaitsFor s 3 2 ∧ ¬ Deadlocked s := by
  have hrun : (runChecked step locksInOrder (State.init 0) waitingRun).map (fun s => waitsFor s 3 2) =
      some true := by
    decide +kernel
  obtain ⟨s, hs, hwaits⟩ := Option.map_eq_some_iff.mp hrun
  exact ⟨s, hs, waitsFor_of_eq_true hwaits, not_deadlocked (reachesUnder_of_runChecked (fun _ _ h => h) hs)⟩

/-- The queue `a` is paused when the first claim locks the queues, and resumed before it claims; the
second claim has locked `a` meanwhile and waits for `b`. -/
def deadlockedRun : List Action :=
  transaction 0 (.updateQueue ⟨"a", some true, none⟩) 3 ++
    transaction 1 (.updateQueue ⟨"b", some false, none⟩) 3 ++
    .begin (.claimLoop ⟨"v", ["a", "b"], 1, 60, 10⟩) :: List.replicate 5 (.advance 2) ++
    transaction 3 (.updateQueue ⟨"a", some false, none⟩) 3 ++
    .begin (.claimLoop ⟨"w", ["a", "b"], 1, 60, 10⟩) :: List.replicate 4 (.advance 4) ++ [.advance 2]

/-- The first claim waits for `a`, which it has not locked in its first statement, and the second one for `b`. -/
theorem not_deadlockFree_deadlockedRun : ¬ ∀ s, Reachable s → ¬ Deadlocked s := by
  intro hall
  have hrun : waitsFor (stateAfter 0 deadlockedRun) 2 4 = true ∧
      waitsFor (stateAfter 0 deadlockedRun) 4 2 = true := by
    decide +kernel
  refine hall _ (reachable_stateAfter 0 deadlockedRun) ⟨2, ?_⟩
  exact .tail (.single (waitsFor_of_eq_true hrun.1)) (waitsFor_of_eq_true hrun.2)

end PgRelay
