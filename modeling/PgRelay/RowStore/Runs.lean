import Mathlib.Data.Nat.Notation
import Mathlib.Logic.Relation

/-!
# Runs of a guarded transition function

A system is a function that performs one action, or refuses it with `none`. A state is reached by
any finite sequence of performed actions. A run may also be restricted to actions that meet a
condition on the state before them; the unrestricted runs are those under the condition `True`.

An observer may note down what happens in a run. The notes are history variables: they do not enable
or prevent an action, but they let a property speak of the past.
-/

namespace RowStore

variable {S A : Type} (step : S → A → Option S)

/-- One performed action that meets the condition. -/
def StepUnder (ok : S → A → Prop) (s s' : S) : Prop := ∃ a, ok s a ∧ step s a = some s'

/-- Reached by performed actions that all meet the condition. -/
def ReachesUnder (ok : S → A → Prop) : S → S → Prop := Relation.ReflTransGen (StepUnder step ok)

/-- Reached by any performed actions. -/
abbrev Reaches : S → S → Prop := ReachesUnder step fun _ _ => True

/-- Perform a list of actions in order, checking each against a Boolean condition first. -/
def runChecked (check : S → A → Bool) (s : S) (acts : List A) : Option S :=
  acts.foldlM (fun s a => if check s a then step s a else none) s

/-- Perform a list of actions in order. -/
abbrev run : S → List A → Option S := runChecked step fun _ _ => true

/-- A property holds in every state that a list of actions leads through. -/
def Throughout (P : S → Prop) : S → List A → Prop
  | s, [] => P s
  | s, a :: acts => P s ∧ ∀ s', step s a = some s' → Throughout P s' acts

/-- Every performed action of a list meets a condition on the state before it. -/
def AlwaysMeets (ok : S → A → Prop) : S → List A → Prop
  | _, [] => True
  | s, a :: acts => ∀ s', step s a = some s' → ok s a ∧ AlwaysMeets ok s' acts

/-- The system with the notes of an observer, who sees every performed action and the states around
it. -/
def observed {H : Type} (note : H → S → A → S → H) (sh : S × H) (a : A) : Option (S × H) :=
  (step sh.1 a).map fun s' => (s', note sh.2 sh.1 a s')

variable {step}

/-- A property that every admitted action preserves holds in every state reached. -/
theorem ReachesUnder.invariant {ok : S → A → Prop} {I : S → Prop} {s s' : S}
    (h : ReachesUnder step ok s s')
    (hstart : I s) (hstep : ∀ s a s', I s → ok s a → step s a = some s' → I s') : I s' := by
  induction h with
  | refl => exact hstart
  | tail _ hlast ih =>
    obtain ⟨a, hok, hs⟩ := hlast
    exact hstep _ a _ ih hok hs

/-- A restricted run is a run. -/
theorem ReachesUnder.reaches {ok : S → A → Prop} {s s' : S} (h : ReachesUnder step ok s s') :
    Reaches step s s' :=
  h.lift id fun _ _ ⟨a, _, hs⟩ => ⟨a, trivial, hs⟩

/-- A performed list of actions, each passing the check, reaches its final state. -/
theorem reachesUnder_of_runChecked {ok : S → A → Prop} {check : S → A → Bool}
    (hcheck : ∀ s a, check s a = true → ok s a) {s s' : S} {acts : List A}
    (h : runChecked step check s acts = some s') : ReachesUnder step ok s s' := by
  induction acts generalizing s with
  | nil =>
    obtain rfl : s = s' := by simpa [runChecked] using h
    exact .refl
  | cons a acts ih =>
    rw [runChecked, List.foldlM_cons] at h
    obtain ⟨mid, hfirst, hrest⟩ := Option.bind_eq_some_iff.mp h
    by_cases hc : check s a = true
    · rw [if_pos hc] at hfirst
      exact (ih hrest).head ⟨a, hcheck s a hc, hfirst⟩
    · simp [hc] at hfirst

/-- A performed list of actions reaches its final state. -/
theorem reaches_of_run {s s' : S} {acts : List A} (h : run step s acts = some s') :
    Reaches step s s' :=
  reachesUnder_of_runChecked (fun _ _ _ => trivial) h

/-- Of a performed list of actions every first part is performed. -/
theorem isSome_run_take {s : S} {acts : List A} (h : (run step s acts).isSome = true) (n : ℕ) :
    (run step s (acts.take n)).isSome = true := by
  rw [← List.take_append_drop n acts, run, runChecked, List.foldlM_append] at h
  obtain ⟨s', hs'⟩ := Option.isSome_iff_exists.mp h
  obtain ⟨mid, hmid, -⟩ := Option.bind_eq_some_iff.mp hs'
  exact Option.isSome_iff_exists.mpr ⟨mid, hmid⟩

/-- One more action of a list. -/
theorem run_take_succ (s : S) {acts : List A} {n : ℕ} (hn : n < acts.length) :
    run step s (acts.take (n + 1)) = (run step s (acts.take n)).bind fun s' => step s' acts[n] := by
  rw [run, runChecked, List.take_succ_eq_append_getElem hn, List.foldlM_append]
  simp [runChecked]

/-- If an action keeps a property exactly when it meets a condition, then the property holds
throughout exactly the lists of actions that always meet the condition. -/
theorem throughout_iff_alwaysMeets {ok : S → A → Prop} {P I : S → Prop}
    (hinv : ∀ s a s', I s → step s a = some s' → I s')
    (hstep : ∀ s a s', I s → P s → step s a = some s' → (P s' ↔ ok s a)) {s : S} (hI : I s) (hP : P s)
    (acts : List A) : Throughout step P s acts ↔ AlwaysMeets step ok s acts := by
  induction acts generalizing s with
  | nil => simp [Throughout, AlwaysMeets, hP]
  | cons a acts ih =>
    simp only [Throughout, AlwaysMeets, hP, true_and]
    apply forall₂_congr
    intro s' hs
    rw [← hstep s a s' hI hP hs]
    refine ⟨fun hrest => ?_, fun ⟨hP', hrest⟩ => (ih (hinv s a s' hI hs) hP').mpr hrest⟩
    have hP' : P s' := by
      cases acts with
      | nil => exact hrest
      | cons => exact hrest.1
    exact ⟨hP', (ih (hinv s a s' hI hs) hP').mp hrest⟩

/-! ## Observed runs -/

variable {H : Type} {note : H → S → A → S → H}

/-- An observed action is an action and its note. -/
theorem observed_eq_some {sh sh' : S × H} {a : A} :
    observed step note sh a = some sh' ↔ step sh.1 a = some sh'.1 ∧ sh'.2 = note sh.2 sh.1 a sh'.1 := by
  simp only [observed, Option.map_eq_some_iff]
  constructor
  · rintro ⟨s', hs, rfl⟩
    exact ⟨hs, rfl⟩
  · rintro ⟨hs, hnote⟩
    exact ⟨sh'.1, hs, by rw [← hnote]⟩

/-- An observed run is a run. -/
theorem ReachesUnder.of_observed (ok : S → A → Prop) {sh sh' : S × H}
    (h : ReachesUnder (observed step note) (fun sh a => ok sh.1 a) sh sh') : ReachesUnder step ok sh.1 sh'.1 := by
  refine h.lift Prod.fst ?_
  rintro sh sh' ⟨a, hok, hs⟩
  exact ⟨a, hok, (observed_eq_some.mp hs).1⟩

/-- One more action of an observed run. -/
theorem ReachesUnder.observed_tail {ok : S → A → Prop} {sh : S × H} {s s' : S} {h : H}
    (hrun : ReachesUnder (observed step note) (fun sh a => ok sh.1 a) sh (s, h)) (a : A) (hok : ok s a)
    (hs : step s a = some s') :
    ReachesUnder (observed step note) (fun sh a => ok sh.1 a) sh (s', note h s a s') :=
  hrun.tail ⟨a, hok, observed_eq_some.mpr ⟨hs, rfl⟩⟩

/-- A property of the state and the notes holds throughout an observed run if every admitted action
keeps it. -/
theorem ReachesUnder.observed_invariant (ok : S → A → Prop) {I : S → H → Prop} {s s' : S} {h h' : H}
    (hrun : ReachesUnder (observed step note) (fun sh a => ok sh.1 a) (s, h) (s', h')) (hstart : I s h)
    (hstep : ∀ s h a s', I s h → ok s a → step s a = some s' → I s' (note h s a s')) : I s' h' := by
  refine hrun.invariant (I := fun sh => I sh.1 sh.2) hstart fun sh a sh' hI hok hs => ?_
  obtain ⟨hs, hnote⟩ := observed_eq_some.mp hs
  rw [hnote]
  exact hstep sh.1 sh.2 a sh'.1 hI hok hs

end RowStore
