import PgRelay.ClaimSchedule
import PgRelay.Progress

/-!
# A transaction that runs alone

What a transaction does that runs from its begin to its commit while no other is open. It waits for nobody, so
it comes to its commit unless a constraint refuses one of its writes; and what each of its steps keeps holds when
it commits.
-/

namespace PgRelay

open RowStore

variable {s s' x x' : State} {t : TxnId} {T : Txn} {effect : Effect} {task : Task} {P : State → Txn → Prop}

/-- No transaction is open. -/
def Quiescent (s : State) : Prop := ∀ t, s.txns t = none

/-- The transaction takes a step, or time passes. -/
def OwnStepOrTick (t : TxnId) (s : State) (a : Action) : Prop := OwnStep t s a ∨ ∃ elapsed, a = .tick elapsed

/-- The transaction runs from its begin to its commit, and nothing else does. -/
def RunsAlone (task : Task) (s s' : State) : Prop :=
  ∃ x, ReachesUnder step (OwnStepOrTick s.nextTxn) (s.open task) x ∧ step x (.commit s.nextTxn) = some s'

/-- An open transaction that has begun while none was open and is still alone. -/
structure SoleTxn (s x : State) (T : Txn) : Prop where
  reachable : Reachable x
  txn : x.txns s.nextTxn = some T
  others : ∀ u, u ≠ s.nextTxn → x.txns u = none
  jobs_eq : x.jobs = s.jobs
  queues_eq : x.queues = s.queues
  executions_eq : x.executions = s.executions
  clock_le : s.clock ≤ x.clock
  now_eq : T.now = s.clock

/-- Transactions that have not begun are not open. -/
theorem Reachable.quiescent (h : Reachable s) {n : ℕ} (hn : s.nextTxn ≤ n) (hnone : ∀ t < n, s.txns t = none) :
    Quiescent s :=
  fun t => (Nat.lt_or_ge t n).elim (hnone t) fun hge => h.inv.unborn t (hn.trans hge)

/-- Nobody else holds a lock. -/
theorem SoleTxn.alone (h : SoleTxn s x T) : Alone x s.nextTxn := by
  have hown {u : TxnId} (hu : x.txns u ≠ none) : u = s.nextTxn := by
    by_contra hne
    exact hu (h.others u hne)
  refine ⟨fun id => ?_, fun q => ?_, fun q u hu => hown (h.reachable.inv.queueShares q u hu)⟩
  · cases hlock : x.jobLocks id with
    | none => exact .inl hlock
    | some u => exact .inr (hlock.trans (congrArg some (hown (h.reachable.inv.jobLocks id u hlock))))
  · cases hlock : x.queueLocks q with
    | none => exact .inl hlock
    | some u => exact .inr (hlock.trans (congrArg some (hown (h.reachable.inv.queueLocks q u hlock))))

/-- A transaction that begins while none is open is alone. -/
theorem SoleTxn.init (h : Reachable s) (hidle : Quiescent s) {request : Request}
    (hrequest : request.task s = some task) :
    SoleTxn s (s.open task) ⟨s.clock, task, [], []⟩ where
  reachable := h.tail (a := .begin request) (by simp [step, hrequest])
  txn := by simp [State.open]
  others u hu := by simpa [State.open, hu] using hidle u
  jobs_eq := rfl
  queues_eq := rfl
  executions_eq := rfl
  clock_le := le_refl _
  now_eq := rfl

/-- The transaction stays alone: time passes, or it takes a step. -/
theorem SoleTxn.step {a : Action} (h : SoleTxn s x T) (ha : OwnStepOrTick s.nextTxn x a)
    (hs : PgRelay.step x a = some x') :
    (∃ elapsed : ℕ, x' = { x with clock := x.clock + elapsed } ∧ SoleTxn s x' T) ∨
      ∃ effect, Steps x s.nextTxn T effect ∧ x' = x.perform s.nextTxn T effect ∧ SoleTxn s x' (T.after effect) := by
  have hperform {effect : Effect} (hx' : x.perform s.nextTxn T effect = x') : SoleTxn s x' (T.after effect) := by
    refine ⟨h.reachable.tail hs, ?_, fun u hu => ?_, ?_, ?_, ?_, ?_, h.now_eq⟩
    · simp [← hx', State.perform]
    · simpa [← hx', State.perform, hu] using h.others u hu
    · exact hx' ▸ h.jobs_eq
    · exact hx' ▸ h.queues_eq
    · exact hx' ▸ h.executions_eq
    · exact hx' ▸ h.clock_le
  rcases ha with (rfl | rfl) | ⟨elapsed, rfl⟩
  · simp only [PgRelay.step, h.txn, Option.bind_some] at hs
    obtain ⟨effect, he, hx'⟩ := Option.map_eq_some_iff.mp hs
    exact .inr ⟨effect, .inl he, hx'.symm, hperform hx'⟩
  · simp only [PgRelay.step, h.txn, Option.bind_some] at hs
    obtain ⟨effect, he, hx'⟩ := Option.map_eq_some_iff.mp hs
    exact .inr ⟨effect, .inr (.inl he), hx'.symm, hperform hx'⟩
  · obtain rfl := Option.some.inj hs
    exact .inl ⟨elapsed, rfl, h.reachable.tail hs, h.txn, h.others, h.jobs_eq, h.queues_eq, h.executions_eq,
      h.clock_le.trans (by simp), h.now_eq⟩

/-- What time and the steps of the transaction keep while it is alone. -/
structure KeptAlone (s : State) (P : State → Txn → Prop) : Prop where
  tick : ∀ x T (elapsed : ℕ), P x T → P { x with clock := x.clock + elapsed } T
  step : ∀ x T effect, SoleTxn s x T → P x T → Steps x s.nextTxn T effect →
    P (x.perform s.nextTxn T effect) (T.after effect)

/-- One more step of it, or time, keeps it alone and the property. -/
theorem KeptAlone.next {a : Action} (hkept : KeptAlone s P) (h : SoleTxn s x T) (hP : P x T)
    (ha : OwnStepOrTick s.nextTxn x a) (hs : PgRelay.step x a = some x') : ∃ T', SoleTxn s x' T' ∧ P x' T' := by
  rcases h.step ha hs with ⟨elapsed, rfl, hnext⟩ | ⟨effect, he, rfl, hnext⟩
  · exact ⟨T, hnext, hkept.tick x T elapsed hP⟩
  · exact ⟨_, hnext, hkept.step x T effect h hP he⟩

/-- What the steps keep holds when the transaction commits. -/
theorem RunsAlone.of_kept (hrun : RunsAlone task s s') (hkept : KeptAlone s P) (h : Reachable s) (hidle : Quiescent s)
    {request : Request} (hrequest : request.task s = some task) (hP : P (s.open task) ⟨s.clock, task, [], []⟩) :
    ∃ x T, SoleTxn s x T ∧ P x T ∧ T.task.committable = true ∧ s' = x.commit s.nextTxn T := by
  obtain ⟨x, hreaches, hcommit⟩ := hrun
  obtain ⟨T, hsole, hPx⟩ : ∃ T, SoleTxn s x T ∧ P x T :=
    hreaches.invariant (I := fun x => ∃ T, SoleTxn s x T ∧ P x T) ⟨_, .init h hidle hrequest, hP⟩
      fun x a x' ⟨_, hsole, hPx⟩ ha hs => hkept.next hsole hPx ha hs
  simp only [PgRelay.step, hsole.txn, Option.bind_some] at hcommit
  split_ifs at hcommit with hdone
  exact ⟨x, T, hsole, hPx, hdone, (Option.some.inj hcommit).symm⟩

/-- The state after the commit is idle again. -/
theorem SoleTxn.commit (h : SoleTxn s x T) (hdone : T.task.committable = true) :
    Reachable (x.commit s.nextTxn T) ∧ Quiescent (x.commit s.nextTxn T) ∧ s.clock ≤ (x.commit s.nextTxn T).clock := by
  refine ⟨h.reachable.tail (a := .commit s.nextTxn) (by simp [PgRelay.step, h.txn, hdone]), fun t => ?_, h.clock_le⟩
  by_cases ht : t = s.nextTxn
  · simp [State.commit, State.close, ht]
  · simpa [State.commit, State.close, ht] using h.others t ht

/-- Alone, a transaction waits for nobody. -/
theorem SoleTxn.stopped (h : SoleTxn s x T) (hnone : statement x s.nextTxn T = none) :
    T.task.over = true ∨ T.Refused x := by
  rcases stopped_of_eq_none hnone with hover | hrefused | ⟨l, -, u, hne, hheld⟩
  · exact .inl hover
  · exact .inr hrefused
  · obtain ⟨U, hU, -⟩ := h.reachable.mayHold hheld
    rw [h.others u hne] at hU
    cases hU

/-- A transaction that is alone and never refused comes to its commit. -/
theorem exists_runsAlone (hkept : KeptAlone s P) (h : Reachable s) (hidle : Quiescent s) {request : Request}
    (hrequest : request.task s = some task) (hP : P (s.open task) ⟨s.clock, task, [], []⟩)
    (hstop : ∀ x T, P x T → T.task.over = true ∨ T.Refused x → T.task.committable = true) :
    ∃ s', RunsAlone task s s' := by
  have hends (x : State) (T : Txn) (hsole : SoleTxn s x T) (hPx : P x T) : ∃ x' s',
      ReachesUnder step (OwnStepOrTick s.nextTxn) x x' ∧ step x' (.commit s.nextTxn) = some s' := by
    -- Every step leaves the transaction less to do.
    induction hleft : T.left using WellFoundedLT.induction generalizing x T with
    | _ left ih =>
      cases he : statement x s.nextTxn T with
      | none =>
        have hcommit := hstop x T hPx (hsole.stopped he)
        exact ⟨x, x.commit s.nextTxn T, .refl, by simp [step, hsole.txn, hcommit]⟩
      | some effect =>
        have hs : step x (.advance s.nextTxn) = some (x.perform s.nextTxn T effect) := by
          simp [step, hsole.txn, he]
        obtain ⟨T', hnext, hPx'⟩ := hkept.next hsole hPx (.inl (.inl rfl)) hs
        obtain rfl : T.after effect = T' := by simpa [State.perform] using hnext.txn
        obtain ⟨x', s', hrun, hcommit⟩ := ih _ (hleft ▸ left_statement he) _ _ hnext hPx' rfl
        exact ⟨x', s', hrun.head ⟨_, .inl (.inl rfl), hs⟩, hcommit⟩
  obtain ⟨x, s', hrun, hcommit⟩ := hends _ _ (.init h hidle hrequest) hP
  exact ⟨s', x, hrun, hcommit⟩

end PgRelay
