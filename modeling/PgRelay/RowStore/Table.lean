import Mathlib.Data.List.Nodup
import Mathlib.Data.List.Perm.Subperm

/-!
# Finite tables with a primary key

A table is a finite list of rows without two rows of the same key; the uniqueness is a field,
so an operation that would break it cannot be written. The order of the rows carries no
meaning: a written row goes to the end, as a new row version does.
-/

namespace RowStore

variable {K R : Type} {key : R → K}

/-- Rows with pairwise distinct keys. -/
structure Table (key : R → K) where
  rows : List R
  nodup : (rows.map key).Nodup

namespace Table

/-- The table without rows. -/
def empty : Table key := ⟨[], List.nodup_nil⟩

variable [DecidableEq K]

/-- The row stored under a key. -/
def get (tbl : Table key) (k : K) : Option R := tbl.rows.find? (fun r => key r = k)

/-- Delete the row stored under a key, if there is one. -/
def erase (tbl : Table key) (k : K) : Table key :=
  ⟨tbl.rows.filter (fun r => key r ≠ k), (List.filter_sublist.map key).nodup tbl.nodup⟩

/-- Store a row under its own key, replacing the row stored there before. -/
def put (tbl : Table key) (r : R) : Table key :=
  ⟨(tbl.erase (key r)).rows ++ [r], by
    rw [List.map_append, List.nodup_append]
    refine ⟨(tbl.erase (key r)).nodup, by simp, ?_⟩
    intro k hk k' hk'
    obtain ⟨x, hx, rfl⟩ := List.mem_map.mp hk
    have hne : key x ≠ key r := by simpa [erase] using (List.mem_filter.mp hx).2
    simpa [List.mem_singleton.mp hk'] using hne⟩

/-- Store a version of the row under a key, where the version `none` is a deletion. -/
def write (tbl : Table key) (k : K) : Option R → Table key
  | none => tbl.erase k
  | some r => tbl.put r

/-- The number of rows with a property. -/
def count (tbl : Table key) (p : R → Bool) : ℕ := (tbl.rows.filter p).length

/-- A lookup finds exactly the stored row of that key. -/
theorem get_eq_some_iff (tbl : Table key) (k : K) (r : R) :
    tbl.get k = some r ↔ r ∈ tbl.rows ∧ key r = k := by
  constructor
  · intro h
    exact ⟨List.mem_of_find?_eq_some h, by simpa using List.find?_some h⟩
  · rintro ⟨hmem, rfl⟩
    cases hfind : tbl.get (key r) with
    | none =>
      have hnone := List.find?_eq_none.mp hfind r hmem
      simp at hnone
    | some found =>
      have hfound : found ∈ tbl.rows := List.mem_of_find?_eq_some hfind
      have hkey : key found = key r := by simpa using List.find?_some hfind
      rw [List.inj_on_of_nodup_map tbl.nodup hfound hmem hkey]

/-- The key of a looked-up row is the key asked for. -/
theorem key_of_get {tbl : Table key} {k : K} {r : R} (h : tbl.get k = some r) : key r = k :=
  ((tbl.get_eq_some_iff k r).mp h).2

/-- A stored row is the one its key finds. -/
theorem get_of_mem {tbl : Table key} {r : R} (h : r ∈ tbl.rows) : tbl.get (key r) = some r :=
  (tbl.get_eq_some_iff _ r).mpr ⟨h, rfl⟩

/-- Looking keys up finds rows under a sublist of these keys. -/
theorem map_key_filterMap_get (tbl : Table key) (ks : List K) :
    ((ks.filterMap tbl.get).map key).Sublist ks := by
  induction ks with
  | nil => exact .slnil
  | cons k ks ih =>
    cases hget : tbl.get k with
    | none => simpa [hget] using ih.cons k
    | some r => simpa [hget, key_of_get hget] using ih

/-- Rows of the table are found again under their keys. -/
theorem filterMap_get_map_key {tbl : Table key} {rows : List R} (h : rows ⊆ tbl.rows) :
    (rows.map key).filterMap tbl.get = rows := by
  induction rows with
  | nil => rfl
  | cons r rows ih =>
    have hhead := get_of_mem (h List.mem_cons_self)
    simp only [List.map_cons, List.filterMap_cons, hhead, ih fun r' hr' => h (List.mem_cons_of_mem _ hr')]

/-- The empty table has no rows. -/
@[simp] theorem get_empty (k : K) : (empty : Table key).get k = none := rfl

/-- Deleting a key removes its row and no other. -/
theorem get_erase (tbl : Table key) (k k' : K) :
    (tbl.erase k).get k' = if k = k' then none else tbl.get k' := by
  by_cases hk : k = k'
  · subst hk
    simp [get, erase]
  · rw [if_neg hk]
    simp only [get, erase, List.find?_filter]
    congr 1
    funext r
    by_cases hr : key r = k'
    · have hne : key r ≠ k := fun h => hk (h.symm.trans hr)
      simp [hr, Ne.symm hk]
    · simp [hr]

/-- Storing a row changes the row of its own key only. -/
theorem get_put (tbl : Table key) (r : R) (k : K) :
    (tbl.put r).get k = if key r = k then some r else tbl.get k := by
  have hsplit : (tbl.put r).get k = ((tbl.erase (key r)).get k).or ([r].find? (fun x => key x = k)) := by
    simp only [get, put, List.find?_append]
  rw [hsplit, get_erase]
  by_cases hk : key r = k
  · simp [hk]
  · simp [hk]

/-- Writing a version of a key changes the row of that key only. -/
theorem get_write (tbl : Table key) (k : K) (v : Option R) (hkey : ∀ r, v = some r → key r = k)
    (k' : K) : (tbl.write k v).get k' = if k = k' then v else tbl.get k' := by
  cases v with
  | none => exact tbl.get_erase k k'
  | some r => rw [write, get_put, hkey r rfl]

/-- A count cannot grow when every counted row was counted under the same key before. -/
theorem count_le_count {tbl tbl' : Table key} {p p' : R → Bool}
    (h : ∀ r ∈ tbl.rows, p r = true → ∃ r', tbl'.get (key r) = some r' ∧ p' r' = true) :
    tbl.count p ≤ tbl'.count p' := by
  have hnodup : ((tbl.rows.filter p).map key).Nodup := (List.filter_sublist.map key).nodup tbl.nodup
  have hsub : (tbl.rows.filter p).map key ⊆ (tbl'.rows.filter p').map key := by
    intro k hk
    obtain ⟨r, hr, rfl⟩ := List.mem_map.mp hk
    obtain ⟨hmem, hp⟩ := List.mem_filter.mp hr
    obtain ⟨r', hget, hp'⟩ := h r hmem hp
    obtain ⟨hmem', hkey⟩ := (tbl'.get_eq_some_iff _ _).mp hget
    exact List.mem_map.mpr ⟨r', List.mem_filter.mpr ⟨hmem', hp'⟩, hkey⟩
  simpa only [count, List.length_map] using (hnodup.subperm hsub).length_le

/-- A count shrinks when no row comes to it and one that was counted does not stay. -/
theorem count_lt_count {tbl tbl' : Table key} {p p' : R → Bool}
    (h : ∀ r ∈ tbl.rows, p r = true → ∃ r', tbl'.get (key r) = some r' ∧ p' r' = true) {k : K} {lost : R}
    (hlost : tbl'.get k = some lost) (hcounted : p' lost = true) (hgone : ∀ r, tbl.get k = some r → p r = false) :
    tbl.count p < tbl'.count p' := by
  obtain ⟨hmem, rfl⟩ := (tbl'.get_eq_some_iff _ _).mp hlost
  -- The other rows of `tbl'` already count for all that `tbl` has.
  have hle : tbl.count p ≤ tbl'.count fun r => decide (key r ≠ key lost) && p' r := by
    refine count_le_count fun r hr hp => ?_
    obtain ⟨r', hget, hp'⟩ := h r hr hp
    refine ⟨r', hget, ?_⟩
    rw [hp', Bool.and_true, decide_eq_true_eq, key_of_get hget]
    intro hkey
    rw [hgone r (hkey ▸ get_of_mem hr)] at hp
    cases hp
  refine Nat.lt_of_le_of_lt hle ?_
  rw [count, count, ← List.filter_filter]
  exact List.length_filter_lt_length_iff_exists.mpr ⟨lost, List.mem_filter.mpr ⟨hmem, hcounted⟩, by simp⟩

/-- Writing one key adds at most the written row to a count. -/
theorem count_write_le (tbl : Table key) (k : K) (v : Option R) (p : R → Bool) :
    (tbl.write k v).count p ≤ tbl.count p + if v.any p = true then 1 else 0 := by
  have herase (k : K) : (tbl.erase k).count p ≤ tbl.count p := by
    simp only [count, erase]
    exact (List.filter_sublist.filter p).length_le
  cases v with
  | none => exact Nat.le_add_right_of_le (herase k)
  | some r =>
    have hput : (tbl.put r).count p = (tbl.erase (key r)).count p + ([r].filter p).length := by
      simp only [count, put, List.filter_append, List.length_append]
    have hone : ([r].filter p).length = if p r = true then 1 else 0 := by
      by_cases hp : p r = true <;> simp [hp]
    rw [write, hput, hone]
    exact Nat.add_le_add_right (herase (key r)) _

/-- Writing one key takes at most one row out of a count. -/
theorem count_le_count_write (tbl : Table key) (k : K) (v : Option R) (p : R → Bool) :
    tbl.count p ≤ (tbl.write k v).count p + 1 := by
  have herase (k : K) : tbl.count p ≤ (tbl.erase k).count p + 1 := by
    have hone : (tbl.rows.filter fun r => key r = k).length ≤ 1 := by
      have hnodup : ((tbl.rows.filter fun r => key r = k).map key).Nodup :=
        (List.filter_sublist.map key).nodup tbl.nodup
      have hsame : (tbl.rows.filter fun r => key r = k).map key ⊆ [k] := by
        intro k' hk'
        obtain ⟨r, hr, rfl⟩ := List.mem_map.mp hk'
        simpa using (List.mem_filter.mp hr).2
      simpa only [List.length_map, List.length_singleton] using (hnodup.subperm hsame).length_le
    have hsplit := (List.filter_append_perm (fun r => decide (key r = k)) (tbl.rows.filter p)).length_eq
    have hcounted : ((tbl.rows.filter p).filter fun r => key r = k).length ≤ 1 := by
      rw [List.filter_comm]
      exact Nat.le_trans (List.length_filter_le _ _) hone
    have hrest : ((tbl.rows.filter p).filter fun r => !decide (key r = k)).length = (tbl.erase k).count p := by
      simp only [count, erase, List.filter_filter, ne_eq, decide_not, Bool.and_comm]
    rw [List.length_append] at hsplit
    change (tbl.rows.filter p).length ≤ _
    omega
  have hput (r : R) : (tbl.erase (key r)).count p ≤ (tbl.put r).count p := by
    simp only [count, put, List.filter_append, List.length_append]
    exact Nat.le_add_right _ _
  cases v with
  | none => exact herase k
  | some r => exact Nat.le_trans (herase (key r)) (Nat.add_le_add_right (hput r) 1)

/-- Storing rows under other keys leaves the row of a key alone. -/
theorem get_foldl_put {tbl : Table key} {rows : List R} {k : K} (h : ∀ r ∈ rows, key r ≠ k) :
    (rows.foldl put tbl).get k = tbl.get k := by
  induction rows generalizing tbl with
  | nil => rfl
  | cons r rows ih =>
    rw [List.foldl_cons, ih fun r' hr' => h r' (List.mem_cons_of_mem _ hr'), get_put,
      if_neg (h r List.mem_cons_self)]

/-- What storing rows leaves under a key depends on the row that was there only. -/
theorem get_foldl_put_congr {tbl tbl' : Table key} (rows : List R) {k : K} (h : tbl'.get k = tbl.get k) :
    (rows.foldl put tbl').get k = (rows.foldl put tbl).get k := by
  induction rows generalizing tbl tbl' with
  | nil => exact h
  | cons r rows ih =>
    apply ih
    rw [get_put, get_put, h]

/-- Storing rows deletes none. -/
theorem get_foldl_put_ne_none {tbl : Table key} (rows : List R) {k : K} (h : tbl.get k ≠ none) :
    (rows.foldl put tbl).get k ≠ none := by
  induction rows generalizing tbl with
  | nil => exact h
  | cons r rows ih =>
    apply ih
    rw [get_put]
    split_ifs
    · simp
    · exact h

/-- Storing rows finds a row under a key in every table that has one where another table does. -/
theorem get_foldl_put_mono {tbl tbl' : Table key} (rows : List R) {k : K}
    (h : tbl.get k ≠ none → tbl'.get k ≠ none) (hget : (rows.foldl put tbl).get k ≠ none) :
    (rows.foldl put tbl').get k ≠ none := by
  induction rows generalizing tbl tbl' with
  | nil => exact h hget
  | cons r rows ih =>
    refine ih ?_ hget
    rw [get_put, get_put]
    split_ifs
    · exact fun hr => hr
    · exact h

/-- A row that is found after storing rows was there before or is one of them. -/
theorem get_foldl_put_cases {tbl : Table key} {rows : List R} {k : K} {r : R}
    (h : (rows.foldl put tbl).get k = some r) : tbl.get k = some r ∨ r ∈ rows := by
  induction rows generalizing tbl with
  | nil => exact .inl h
  | cons r' rows ih =>
    rcases ih h with hput | hmem
    · rw [get_put] at hput
      split_ifs at hput
      · exact .inr (Option.some.inj hput ▸ List.mem_cons_self)
      · exact .inl hput
    · exact .inr (List.mem_cons_of_mem _ hmem)

end Table

end RowStore
