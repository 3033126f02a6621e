import PgRelay.Selection.Greedy
import Mathlib.Data.List.Nodup

/-!
# Pages of an ordered selection

A query ranks its rows by descending keys and returns the page of them that follows an offset. Rows of one
key are tied, and every execution breaks ties as it likes. A client that reads page after page, up to the
first empty one, executes the query anew for each.

How many rows a page has does not depend on the ties. Which rows it has does, where its boundary splits a
group of tied rows. If no boundary does, the client gets every row exactly once; if one does, there are
executions in which it gets a row twice, and so misses another (`listsOnce_iff`).
-/

namespace Selection

variable {α κ : Type} [LinearOrder κ] {key : α → κ} {rows order order' : List α} {limit : ℕ}

/-- The first of two rows does not come after the second one. -/
abbrev DescendingBy (key : α → κ) (a b : α) : Prop := key b ≤ key a

/-- The page of a ranking that follows an offset. -/
def page (limit offset : ℕ) (order : List α) : List α := (order.drop offset).take limit

/-- Pages that executions of the query may return, the `k`-th one at the offset `k * limit`. -/
def Pages (key : α → κ) (rows : List α) (limit : ℕ) (pages : ℕ → List α) : Prop :=
  ∀ k, ∃ order, Ranks (DescendingBy key) rows order ∧ pages k = page limit (k * limit) order

/-- The client stops at this page. -/
def FirstEmpty (pages : ℕ → List α) (m : ℕ) : Prop := pages m = [] ∧ ∀ k < m, pages k ≠ []

/-- Whatever pages are returned, the client stops, and then it has got every row exactly once. -/
def ListsOnce (key : α → κ) (rows : List α) (limit : ℕ) : Prop :=
  ∀ pages, Pages key rows limit pages →
    ∃ m, FirstEmpty pages m ∧ ((List.range m).flatMap pages).Perm rows

/-- A boundary after `p` rows falls between tied rows. -/
def SplitsTies (key : α → κ) (rows : List α) (p : ℕ) : Prop :=
  ∃ t, rows.countP (fun a => t < key a) < p ∧ p < rows.countP fun a => t ≤ key a

/-! ## Lists at an index -/

/-- A list around one of its elements. -/
theorem exists_eq_append_cons {p : ℕ} {l : List α} (h : p < l.length) :
    ∃ before a after, l = before ++ a :: after ∧ before.length = p := by
  refine ⟨l.take p, l[p], l.drop (p + 1), ?_, List.length_take_of_le (Nat.le_of_lt h)⟩
  rw [← List.drop_eq_getElem_cons h, List.take_append_drop]

/-- What stands in the window of a page is on the page. -/
theorem mem_page {i offset : ℕ} {a : α} (h : order[offset + i]? = some a) (hi : i < limit) :
    a ∈ page limit offset order := by
  apply List.mem_of_getElem? (i := i)
  rw [page, List.getElem?_take_of_lt hi, List.getElem?_drop]
  exact h

/-- A page is empty exactly if it begins behind the end. -/
theorem page_eq_nil_iff (hlimit : 1 ≤ limit) {offset : ℕ} : page limit offset order = [] ↔ order.length ≤ offset := by
  rw [page, List.take_eq_nil_iff, List.drop_eq_nil_iff]
  omega

/-! ## Rankings -/

/-- Sorting gives a ranking. -/
theorem ranks_insertionSort [DecidableRel (DescendingBy key)] (rows : List α) :
    Ranks (DescendingBy key) rows (rows.insertionSort (DescendingBy key)) := by
  have : IsTrans α (DescendingBy key) := ⟨fun _ _ _ hab hbc => le_trans hbc hab⟩
  have : Std.Total (DescendingBy key) := ⟨fun a b => le_total (key b) (key a)⟩
  exact ⟨List.perm_insertionSort _ rows, List.pairwise_insertionSort _ rows⟩

/-- Rows can be ranked by any key. -/
theorem exists_ranks (key : α → κ) (rows : List α) : ∃ order, Ranks (DescendingBy key) rows order :=
  ⟨_, ranks_insertionSort rows⟩

/-- A ranking has all rows. -/
theorem Ranks.length_eq (h : Ranks (DescendingBy key) rows order) : order.length = rows.length :=
  h.perm.length_eq

/-- The rows above a key come first. -/
theorem filter_eq_take_countP (hsorted : order.Pairwise (DescendingBy key)) (t : κ) :
    order.filter (fun a => t < key a) = order.take (order.countP fun a => t < key a) := by
  induction order with
  | nil => rfl
  | cons a rest ih =>
    obtain ⟨hle, hsorted⟩ := List.pairwise_cons.mp hsorted
    by_cases ha : t < key a
    · rw [List.filter_cons_of_pos (by simpa using ha), List.countP_cons_of_pos (by simpa using ha),
        List.take_succ_cons, ih hsorted]
    · have hnone : ∀ b ∈ a :: rest, ¬ decide (t < key b) = true := by
        intro b hb
        rw [decide_eq_true_eq]
        rcases List.mem_cons.mp hb with rfl | hb
        · exact ha
        · exact fun hlt => ha (hlt.trans_le (hle b hb))
      rw [List.filter_eq_nil_iff.mpr hnone, List.countP_eq_zero.mpr hnone, List.take_zero]

/-- Behind the first rows, there are so many fewer above a key. -/
theorem countP_drop (hsorted : order.Pairwise (DescendingBy key)) (t : κ) (n : ℕ) :
    (order.drop n).countP (fun a => t < key a) = order.countP (fun a => t < key a) - n := by
  induction order generalizing n with
  | nil => simp
  | cons a rest ih =>
    obtain ⟨hle, hsorted⟩ := List.pairwise_cons.mp hsorted
    cases n with
    | zero => rfl
    | succ n =>
      rw [List.drop_succ_cons, ih hsorted n]
      by_cases ha : t < key a
      · rw [List.countP_cons_of_pos (by simpa using ha), Nat.succ_sub_succ]
      · have hnone : rest.countP (fun b => t < key b) = 0 :=
          List.countP_eq_zero.mpr fun b hb => by simpa using (hle b hb).trans (not_lt.mp ha)
        rw [List.countP_cons_of_neg (by simpa using ha), hnone, Nat.zero_sub, Nat.zero_sub]

/-- A boundary that splits no ties has exactly the rows above some key before it. -/
theorem Ranks.exists_countP_eq (h : Ranks (DescendingBy key) rows order) {p : ℕ} (hp : p < rows.length)
    (hsplits : ¬ SplitsTies key rows p) : ∃ t, rows.countP (fun a => t < key a) = p := by
  obtain ⟨before, a, after, rfl, hlength⟩ := exists_eq_append_cons (h.length_eq ▸ hp)
  obtain ⟨-, hafter, hbefore⟩ := List.pairwise_append.mp h.sorted
  have hhigh : p < rows.countP fun b => key a ≤ key b := by
    have hall : before.countP (fun b => key a ≤ key b) = before.length :=
      List.countP_eq_length.mpr fun b hb => decide_eq_true (hbefore b hb a List.mem_cons_self)
    rw [← h.perm.countP_eq, List.countP_append, hall, hlength, List.countP_cons_of_pos (by simp)]
    omega
  have hlow : rows.countP (fun b => key a < key b) ≤ p := by
    have hnone : (a :: after).countP (fun b => key a < key b) = 0 := by
      refine List.countP_eq_zero.mpr fun b hb => ?_
      rw [decide_eq_true_eq, not_lt]
      rcases List.mem_cons.mp hb with rfl | hb
      · exact le_refl _
      · exact (List.pairwise_cons.mp hafter).1 b hb
    rw [← h.perm.countP_eq, List.countP_append, hnone, ← hlength]
    exact List.countP_le_length
  refine ⟨key a, Nat.le_antisymm hlow (Nat.le_of_not_lt fun hlt => hsplits ⟨key a, hlt, hhigh⟩)⟩

/-- All rankings have the same rows before a boundary that splits no ties. -/
theorem Ranks.take_perm (h : Ranks (DescendingBy key) rows order) (h' : Ranks (DescendingBy key) rows order')
    {p : ℕ} (hsplits : ¬ SplitsTies key rows p) : (order.take p).Perm (order'.take p) := by
  by_cases hp : p < rows.length
  · obtain ⟨t, rfl⟩ := h.exists_countP_eq hp hsplits
    have hfilter := (h.perm.trans h'.perm.symm).filter fun a => t < key a
    rw [filter_eq_take_countP h.sorted, filter_eq_take_countP h'.sorted, h.perm.countP_eq,
      h'.perm.countP_eq] at hfilter
    exact hfilter
  · rw [List.take_of_length_le (h.length_eq.trans_le (Nat.le_of_not_lt hp)),
      List.take_of_length_le (h'.length_eq.trans_le (Nat.le_of_not_lt hp))]
    exact h.perm.trans h'.perm.symm

/-! ## Reading all pages -/

variable {pages : ℕ → List α}

/-- A page is empty exactly if it begins behind the rows. -/
theorem Pages.eq_nil_iff (h : Pages key rows limit pages) (hlimit : 1 ≤ limit) (k : ℕ) :
    pages k = [] ↔ rows.length ≤ k * limit := by
  obtain ⟨order, horder, hk⟩ := h k
  rw [hk, page_eq_nil_iff hlimit, horder.length_eq]

/-- The client stops. -/
theorem Pages.exists_firstEmpty (h : Pages key rows limit pages) (hlimit : 1 ≤ limit) :
    ∃ m, FirstEmpty pages m := by
  have hexists : ∃ m, rows.length ≤ m * limit := ⟨rows.length, Nat.le_mul_of_pos_right _ hlimit⟩
  refine ⟨Nat.find hexists, (h.eq_nil_iff hlimit _).mpr (Nat.find_spec hexists), fun k hk hnil => ?_⟩
  exact Nat.find_min hexists hk ((h.eq_nil_iff hlimit k).mp hnil)

/-- If no boundary splits ties, the first pages together have the first rows of any ranking. -/
theorem Pages.flatMap_perm (h : Pages key rows limit pages) (hsplits : ∀ k, ¬ SplitsTies key rows (k * limit))
    (horder : Ranks (DescendingBy key) rows order) (m : ℕ) :
    ((List.range m).flatMap pages).Perm (order.take (m * limit)) := by
  induction m with
  | zero => simp
  | succ m ih =>
    obtain ⟨order', horder', hm⟩ := h m
    rw [List.range_succ, List.flatMap_append, List.flatMap_singleton, hm]
    have hbefore : (order.take (m * limit)).Perm (order'.take (m * limit)) := horder.take_perm horder' (hsplits m)
    have hpage : order'.take (m * limit) ++ page limit (m * limit) order' = order'.take ((m + 1) * limit) := by
      rw [page, Nat.succ_mul, List.take_add]
    have hafter : (order'.take ((m + 1) * limit)).Perm (order.take ((m + 1) * limit)) :=
      horder'.take_perm horder (hsplits (m + 1))
    exact ((ih.trans hbefore).append_right _).trans (hpage ▸ hafter)

/-- The client gets every row exactly once, if no boundary splits ties. -/
theorem listsOnce_of_not_splitsTies (hlimit : 1 ≤ limit) (hsplits : ∀ k, ¬ SplitsTies key rows (k * limit)) :
    ListsOnce key rows limit := by
  intro pages hpages
  obtain ⟨order, horder⟩ := exists_ranks key rows
  obtain ⟨m, hm⟩ := hpages.exists_firstEmpty hlimit
  refine ⟨m, hm, (hpages.flatMap_perm hsplits horder m).trans ?_⟩
  rw [List.take_of_length_le (horder.length_eq.trans_le ((hpages.eq_nil_iff hlimit m).mp hm.1))]
  exact horder.perm

/-- Around a boundary that splits ties there are two tied rows in any ranking. -/
theorem Ranks.exists_tied (h : Ranks (DescendingBy key) rows order) {p : ℕ} (hsplits : SplitsTies key rows p) :
    ∃ before a b after, order = before ++ a :: b :: after ∧ before.length + 1 = p ∧ key a = key b := by
  obtain ⟨t, hlow, hhigh⟩ := hsplits
  have hp : p < order.length := h.length_eq ▸ hhigh.trans_le List.countP_le_length
  rw [← h.perm.countP_eq] at hlow hhigh
  obtain ⟨before, a, rest, rfl, hlength⟩ := exists_eq_append_cons (Nat.lt_of_le_of_lt (Nat.sub_le p 1) hp)
  obtain ⟨b, after, rfl⟩ : ∃ b after, rest = b :: after := by
    refine List.exists_cons_of_length_pos ?_
    rw [List.length_append, List.length_cons] at hp
    omega
  obtain ⟨-, hrest, hbefore⟩ := List.pairwise_append.mp h.sorted
  obtain ⟨ha, hrest⟩ := List.pairwise_cons.mp hrest
  -- The first one is not above `t`, for then too many rows would be.
  have hle : key a ≤ t := by
    by_contra hlt
    rw [not_le] at hlt
    have hall : before.countP (fun c => t < key c) = before.length :=
      List.countP_eq_length.mpr fun c hc => decide_eq_true (hlt.trans_le (hbefore c hc a List.mem_cons_self))
    rw [List.countP_append, hall, List.countP_cons_of_pos (by simpa using hlt)] at hlow
    omega
  -- The second one is not below `t`, for then too few rows would be at or above it.
  have hge : t ≤ key b := by
    by_contra hlt
    rw [not_le] at hlt
    have hnone : (b :: after).countP (fun c => t ≤ key c) = 0 := by
      refine List.countP_eq_zero.mpr fun c hc => ?_
      rw [decide_eq_true_eq, not_le]
      rcases List.mem_cons.mp hc with rfl | hc
      · exact hlt
      · exact ((List.pairwise_cons.mp hrest).1 c hc).trans_lt hlt
    have hone : (a :: b :: after).countP (fun c => t ≤ key c) ≤ 1 := by
      rw [List.countP_cons, hnone]
      split <;> omega
    have hbound := List.countP_le_length (p := fun c => decide (t ≤ key c)) (l := before)
    rw [List.countP_append] at hhigh
    omega
  refine ⟨before, a, b, after, rfl, by omega, le_antisymm (hle.trans hge) (ha b List.mem_cons_self)⟩

/-- Two tied neighbours may change places. -/
theorem Ranks.swap {before after : List α} {a b : α} (hties : key a = key b)
    (h : Ranks (DescendingBy key) rows (before ++ a :: b :: after)) :
    Ranks (DescendingBy key) rows (before ++ b :: a :: after) := by
  refine ⟨((List.Perm.swap a b after).append_left before).trans h.perm, ?_⟩
  have hsorted := h.sorted
  simp only [List.pairwise_append, List.pairwise_cons, List.mem_cons, forall_eq_or_imp] at hsorted ⊢
  obtain ⟨hbefore, ⟨⟨hab, ha⟩, hb, hafter⟩, hacross⟩ := hsorted
  exact ⟨hbefore, ⟨⟨hties.le, hb⟩, ha, hafter⟩, fun c hc => ⟨(hacross c hc).2.1, (hacross c hc).1, (hacross c hc).2.2⟩⟩

/-- If a boundary splits ties, one row is the last before it in one execution and the first after it in
another. -/
theorem not_listsOnce_of_splitsTies (hrows : rows.Nodup) {k : ℕ} (hsplits : SplitsTies key rows (k * limit)) :
    ¬ ListsOnce key rows limit := by
  intro honce
  obtain ⟨order, horder⟩ := exists_ranks key rows
  obtain ⟨before, a, b, after, rfl, hlength, hties⟩ := horder.exists_tied hsplits
  have horder' := horder.swap hties
  have hlimit : 1 ≤ limit := Nat.pos_of_ne_zero fun h => by simp [h] at hlength
  let pages : ℕ → List α := fun j =>
    page limit (j * limit) (if j = k then before ++ b :: a :: after else before ++ a :: b :: after)
  have hpages : Pages key rows limit pages := by
    intro j
    by_cases hj : j = k
    · exact ⟨_, horder', by simp only [pages, if_pos hj]⟩
    · exact ⟨_, horder, by simp only [pages, if_neg hj]⟩
  obtain ⟨m, ⟨hempty, -⟩, hperm⟩ := honce pages hpages
  obtain ⟨j, rfl⟩ : ∃ j, k = j + 1 := Nat.exists_eq_succ_of_ne_zero fun h => by simp [h] at hlength
  rw [Nat.succ_mul] at hlength
  have hlast : a ∈ pages j := by
    simp only [pages, if_neg (Nat.ne_of_lt (Nat.lt_succ_self j))]
    refine mem_page (i := limit - 1) ?_ (by omega)
    rw [show j * limit + (limit - 1) = before.length by omega]
    simp
  have hfirst : a ∈ pages (j + 1) := by
    simp only [pages, if_pos]
    refine mem_page (i := 0) ?_ hlimit
    rw [show (j + 1) * limit + 0 = before.length + 1 by rw [Nat.succ_mul]; omega]
    simp
  have hlt : j + 1 < m := by
    by_contra hge
    have hlong : (j + 1) * limit < rows.length := by
      rw [← horder.length_eq, Nat.succ_mul, ← hlength]
      simp
    have hbound : m * limit ≤ (j + 1) * limit := Nat.mul_le_mul_right limit (Nat.le_of_not_lt hge)
    have hshort := (hpages.eq_nil_iff hlimit m).mp hempty
    omega
  obtain ⟨-, hdisjoint⟩ := List.nodup_flatMap.mp (hperm.nodup_iff.mpr hrows)
  exact List.pairwise_iff_getElem.mp hdisjoint j (j + 1) (by simpa using Nat.lt_of_succ_lt hlt) (by simpa using hlt)
    (Nat.lt_succ_self j) (by simpa using hlast) (by simpa using hfirst)

/-- A client that reads all pages gets each row exactly once, whatever the executions, exactly if no
boundary of a page splits a group of tied rows. -/
theorem listsOnce_iff (hlimit : 1 ≤ limit) (hrows : rows.Nodup) :
    ListsOnce key rows limit ↔ ∀ k, ¬ SplitsTies key rows (k * limit) :=
  ⟨fun honce _ hsplits => not_listsOnce_of_splitsTies hrows hsplits honce, listsOnce_of_not_splitsTies hlimit⟩

end Selection
