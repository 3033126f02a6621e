import Mathlib.Data.List.Sort
import Mathlib.Data.List.Dedup
import Mathlib.Algebra.BigOperators.Group.List.Lemmas
import Mathlib.Data.List.Count
import Mathlib.Algebra.Order.Ring.Nat

/-!
# Counting by group

A grouped count lists each value of a list once, in a given order, with the number of its occurrences. It
can be read off one value at a time, too: for each of some candidates its number is asked for, and the
candidates without an occurrence are left out. If the candidates are distinct, cover the list and the
answers are right, the two agree up to the order.
-/

namespace Selection

variable {G : Type} {le : G → G → Prop} [DecidableRel le] {groups : List G}

/-- How many members a group has. -/
def groupSize [DecidableEq G] (groups : List G) (g : G) : ℕ := groups.countP fun g' => g' = g

/-- `SELECT g, count(*) … GROUP BY g ORDER BY g`, over the values of `g` in all rows. -/
def groupCounts [DecidableEq G] (le : G → G → Prop) [DecidableRel le] (groups : List G) : List (G × ℕ) :=
  (groups.dedup.insertionSort le).map fun g => (g, groupSize groups g)

/-- Ask for the count of each candidate in turn, and keep those that are positive; a question may fail. -/
def probeCounts (count : G → Option ℕ) : List G → Option (List (G × ℕ))
  | [] => some []
  | g :: candidates =>
    (count g).bind fun n => (probeCounts count candidates).map fun rows => if 0 < n then (g, n) :: rows else rows

/-- What is kept are the candidates with a positive answer. -/
theorem mem_probeCounts {count : G → Option ℕ} {candidates : List G} {rows : List (G × ℕ)}
    (h : probeCounts count candidates = some rows) {g : G} {n : ℕ} :
    (g, n) ∈ rows ↔ g ∈ candidates ∧ count g = some n ∧ 0 < n := by
  induction candidates generalizing rows with
  | nil =>
    obtain rfl := Option.some.inj h
    simp
  | cons g' candidates ih =>
    obtain ⟨m, hm, h⟩ := Option.bind_eq_some_iff.mp h
    obtain ⟨rest, hrest, rfl⟩ := Option.map_eq_some_iff.mp h
    by_cases hpos : 0 < m
    · rw [if_pos hpos, List.mem_cons, ih hrest, Prod.mk.injEq, List.mem_cons]
      constructor
      · rintro (⟨rfl, rfl⟩ | ⟨hmem, hcount, hn⟩)
        · exact ⟨.inl rfl, hm, hpos⟩
        · exact ⟨.inr hmem, hcount, hn⟩
      · rintro ⟨rfl | hmem, hcount, hn⟩
        · exact .inl ⟨rfl, Option.some.inj (hcount.symm.trans hm)⟩
        · exact .inr ⟨hmem, hcount, hn⟩
    · rw [if_neg hpos, ih hrest, List.mem_cons]
      refine ⟨fun ⟨hmem, hcount, hn⟩ => ⟨.inr hmem, hcount, hn⟩, ?_⟩
      rintro ⟨rfl | hmem, hcount, hn⟩
      · exact absurd (Option.some.inj (hm.symm.trans hcount) ▸ hn) hpos
      · exact ⟨hmem, hcount, hn⟩

/-- The candidates are kept in their order. -/
theorem sublist_probeCounts {count : G → Option ℕ} {candidates : List G} {rows : List (G × ℕ)}
    (h : probeCounts count candidates = some rows) : (rows.map Prod.fst).Sublist candidates := by
  induction candidates generalizing rows with
  | nil =>
    obtain rfl := Option.some.inj h
    exact .slnil
  | cons g candidates ih =>
    obtain ⟨m, -, h⟩ := Option.bind_eq_some_iff.mp h
    obtain ⟨rest, hrest, rfl⟩ := Option.map_eq_some_iff.mp h
    split_ifs
    · exact (ih hrest).cons_cons g
    · exact (ih hrest).cons g

/-- If every question is answered, there is a result. -/
theorem exists_probeCounts {count : G → Option ℕ} (candidates : List G)
    (h : ∀ g ∈ candidates, (count g).isSome) : ∃ rows, probeCounts count candidates = some rows := by
  induction candidates with
  | nil => exact ⟨[], rfl⟩
  | cons g candidates ih =>
    obtain ⟨n, hn⟩ := Option.isSome_iff_exists.mp (h g List.mem_cons_self)
    obtain ⟨rest, hrest⟩ := ih fun g' hg' => h g' (List.mem_cons_of_mem _ hg')
    exact ⟨if 0 < n then (g, n) :: rest else rest, by simp [probeCounts, hn, hrest]⟩

variable [DecidableEq G]

/-- The size of a group counts its members. -/
theorem groupSize_eq_count (g : G) : groupSize groups g = groups.count g :=
  List.countP_congr fun g' _ => by simp

/-- A group has a size if it has a member. -/
theorem groupSize_pos {g : G} : 0 < groupSize groups g ↔ g ∈ groups := by
  rw [groupSize_eq_count, List.count_pos_iff]

/-- The groups are listed with their sizes, and the empty ones are not. -/
theorem mem_groupCounts (le : G → G → Prop) [DecidableRel le] {g : G} {n : ℕ} :
    (g, n) ∈ groupCounts le groups ↔ 0 < n ∧ groupSize groups g = n := by
  simp only [groupCounts, List.mem_map, List.mem_insertionSort, List.mem_dedup, Prod.mk.injEq]
  constructor
  · rintro ⟨g', hg', rfl, rfl⟩
    exact ⟨groupSize_pos.mpr hg', rfl⟩
  · rintro ⟨hpos, rfl⟩
    exact ⟨g, groupSize_pos.mp hpos, rfl, rfl⟩

/-- Each group is counted once. -/
theorem nodup_groupCounts : ((groupCounts le groups).map Prod.fst).Nodup := by
  have hgroups : (groupCounts le groups).map Prod.fst = groups.dedup.insertionSort le := by
    rw [groupCounts, List.map_map]
    exact List.map_id _
  rw [hgroups]
  exact (List.perm_insertionSort le _).nodup_iff.mpr (List.nodup_dedup groups)

/-- The groups with a property have as many members together as the list has. -/
theorem sum_groupCounts (le : G → G → Prop) [DecidableRel le] (groups : List G) (p : G → Bool) :
    (((groupCounts le groups).filter fun row => p row.1).map Prod.snd).sum = groups.countP p := by
  have hperm : (groupCounts le groups).Perm (groups.dedup.map fun g => (g, groupSize groups g)) :=
    (List.perm_insertionSort le _).map _
  calc
    (((groupCounts le groups).filter fun row => p row.1).map Prod.snd).sum
      = (((groups.dedup.map fun g => (g, groupSize groups g)).filter fun row => p row.1).map Prod.snd).sum :=
        ((hperm.filter _).map _).sum_eq
    _ = ((groups.dedup.filter p).map fun g => groupSize groups g).sum := by
        rw [List.filter_map, List.map_map]
        rfl
    _ = groups.countP p := by
        simp only [groupSize_eq_count]
        exact List.sum_map_count_dedup_filter_eq_countP p groups

/-- Right answers for distinct candidates that cover the list give the grouped count. -/
theorem perm_probeCounts {count : G → Option ℕ} {candidates : List G} {rows : List (G × ℕ)}
    (h : probeCounts count candidates = some rows) (hnodup : candidates.Nodup) (hcover : groups ⊆ candidates)
    (hcount : ∀ g ∈ candidates, count g = some (groupSize groups g)) : rows.Perm (groupCounts le groups) := by
  refine (List.perm_ext_iff_of_nodup ((sublist_probeCounts h).nodup hnodup).of_map
    nodup_groupCounts.of_map).mpr fun ⟨g, n⟩ => ?_
  rw [mem_probeCounts h, mem_groupCounts]
  constructor
  · rintro ⟨hmem, hn, hpos⟩
    exact ⟨hpos, Option.some.inj ((hcount g hmem).symm.trans hn)⟩
  · rintro ⟨hpos, rfl⟩
    have hmem : g ∈ candidates := hcover (groupSize_pos.mp hpos)
    exact ⟨hmem, hcount g hmem, hpos⟩

end Selection
