import Mathlib.Data.List.Nodup
import Mathlib.Data.List.Perm.Subperm
import Mathlib.Logic.Relation

/-!
# A pool of slots

A party starts activities of which at most `capacity` may be under way. It counts the free slots, sets
some of them aside, and starts its activities later, when it has learned how many it needs; in between, other
activities may end, and the party may give slots up. That the count is old by then does no harm, since only
the party itself starts anything.
-/

namespace RowStore

/-- The slots that are taken, and those that are set aside. -/
structure Slots where
  taken : ℕ
  reserved : ℕ

/-- No more slots are taken and set aside than there are. -/
def Slots.Within (capacity : ℕ) (p : Slots) : Prop := p.taken + p.reserved ≤ capacity

/-- What may happen to the slots. -/
inductive Slots.Move (capacity : ℕ) (p : Slots) : Slots → Prop
  | reserve {n : ℕ} (hfree : n ≤ capacity - p.taken) : Move capacity p ⟨p.taken, n⟩
  | start {n : ℕ} (hreserved : n ≤ p.reserved) : Move capacity p ⟨p.taken + n, 0⟩
  | giveUp {n : ℕ} (hreserved : n ≤ p.reserved) : Move capacity p ⟨p.taken, n⟩
  | free {n : ℕ} (htaken : n ≤ p.taken) : Move capacity p ⟨n, p.reserved⟩

variable {capacity : ℕ} {p p' : Slots}

/-- A move keeps the pool within its capacity. -/
theorem Slots.Move.within (h : p.Move capacity p') (hp : p.Within capacity) : p'.Within capacity := by
  unfold Slots.Within at hp ⊢
  cases h <;> dsimp only <;> omega

/-- Nothing happens to the slots. -/
theorem Slots.Move.stay (p : Slots) : p.Move capacity p := .giveUp (Nat.le_refl _)

/-- A system whose steps are moves of its slots stays within the capacity. -/
theorem Slots.within_of_reflTransGen {S : Type} {r : S → S → Prop} (slots : S → Slots)
    (hstep : ∀ s s', r s s' → (slots s).Move capacity (slots s')) {s s' : S} (h : Relation.ReflTransGen r s s')
    (hstart : (slots s).Within capacity) : (slots s').Within capacity := by
  induction h with
  | refl => exact hstart
  | tail _ hlast ih => exact (hstep _ _ hlast).within ih

/-- Activities that are all entered in a list are no more than its entries. -/
theorem length_filter_range_le {n : ℕ} {active : ℕ → Bool} {entries : List ℕ}
    (h : ∀ i < n, active i = true → i ∈ entries) : ((List.range n).filter active).length ≤ entries.length := by
  have hsubset : (List.range n).filter active ⊆ entries := fun i hi => by
    obtain ⟨hlt, hactive⟩ := List.mem_filter.mp hi
    exact h i (List.mem_range.mp hlt) hactive
  have hnodup : ((List.range n).filter active).Nodup := List.nodup_range.filter _
  exact (hnodup.subperm hsubset).length_le

end RowStore
