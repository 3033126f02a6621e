import Mathlib.Data.List.Sort
import Mathlib.Data.List.Perm.Subperm
import Mathlib.Algebra.Order.BigOperators.Group.List
import Mathlib.Algebra.Order.Ring.Nat

/-!
# Greedy choice under group limits

Elements fall into groups, a group has a number of slots, and at most `batch` elements are chosen in
all. `greedy` scans the elements in an order and takes each one whose group has a slot left. `Selects`
chooses in two stages, as a query with a limited subquery for each group does: the first elements of each
group up to its slots, then the first `batch` of all of these. Both orders may break ties as they like.

The two choices are the same up to ties (`Selects.greedy`). No element is passed over by a strictly later
one unless its group is full, and the number of chosen elements is as large as the limits allow.
-/

namespace Selection

variable {α κ : Type} [DecidableEq κ] {group : α → κ} {slots : κ → ℕ} {batch : ℕ}

/-- The elements of one group. -/
def inGroup (group : α → κ) (k : κ) (elements : List α) : List α := elements.filter fun a => group a = k

/-- The scan, after it has taken some elements. -/
def greedyFrom (group : α → κ) (slots : κ → ℕ) (batch : ℕ) (taken : List α) : List α → List α
  | [] => taken
  | a :: rest =>
    if taken.length < batch ∧ (inGroup group (group a) taken).length < slots (group a) then
      greedyFrom group slots batch (taken ++ [a]) rest
    else greedyFrom group slots batch taken rest

/-- Scan the elements in their order and take each one whose group has a slot left, until `batch` are
taken. -/
def greedy (group : α → κ) (slots : κ → ℕ) (batch : ℕ) (order : List α) : List α :=
  greedyFrom group slots batch [] order

/-- The list is the elements in an order that respects `r`. -/
structure Ranks (r : α → α → Prop) (elements order : List α) : Prop where
  perm : order.Perm elements
  sorted : order.Pairwise r

/-- The choice in two stages: `order k` is the order in which the subquery of a group finds its elements,
`ranked` the order in which the outer query finds those that the subqueries keep. -/
structure SelectsBy (r : α → α → Prop) (group : α → κ) (slots : κ → ℕ) (batch : ℕ) (eligible : List α)
    (order : κ → List α) (ranked chosen : List α) : Prop where
  groups : ∀ k, Ranks r (inGroup group k eligible) (order k)
  kept : ∀ k, (inGroup group k ranked).Perm ((order k).take (slots k))
  sorted : ranked.Pairwise r
  chosen_eq : chosen = ranked.take batch

/-- The choice in two stages, with ties broken somehow. -/
def Selects (r : α → α → Prop) (group : α → κ) (slots : κ → ℕ) (batch : ℕ) (eligible chosen : List α) : Prop :=
  ∃ order ranked, SelectsBy r group slots batch eligible order ranked chosen

/-! ## The scan -/

/-- A scan that takes exactly the elements of a set gives that set. -/
theorem greedyFrom_eq_filter {C : α → Bool} (rest taken : List α)
    (h : ∀ pre a post, rest = pre ++ a :: post → (C a = true ↔
      (taken ++ pre.filter C).length < batch ∧
        (inGroup group (group a) (taken ++ pre.filter C)).length < slots (group a))) :
    greedyFrom group slots batch taken rest = taken ++ rest.filter C := by
  induction rest generalizing taken with
  | nil => simp [greedyFrom]
  | cons a rest ih =>
    have hhead := h [] a rest rfl
    simp only [List.filter_nil, List.append_nil] at hhead
    cases hC : C a with
    | true =>
      rw [greedyFrom, if_pos (hhead.mp hC), ih, List.filter_cons_of_pos hC, List.append_assoc]
      · rfl
      · intro pre b post hrest
        have hsplit := h (a :: pre) b post (by rw [hrest]; rfl)
        rwa [List.filter_cons_of_pos hC, ← List.singleton_append, ← List.append_assoc] at hsplit
    | false =>
      have hskip : ¬ (taken.length < batch ∧ (inGroup group (group a) taken).length < slots (group a)) :=
        fun htake => by simp [hhead.mpr htake] at hC
      rw [greedyFrom, if_neg hskip, ih, List.filter_cons_of_neg (by simp [hC])]
      intro pre b post hrest
      have hsplit := h (a :: pre) b post (by rw [hrest]; rfl)
      rwa [List.filter_cons_of_neg (by simp [hC])] at hsplit

/-! ## What a greedy choice is -/

/-- A choice within the limits in which every element that is left out has a reason in earlier ones: the
batch is full of them, or its group is. -/
structure GreedyChoice (r : α → α → Prop) (group : α → κ) (slots : κ → ℕ) (batch : ℕ) (eligible chosen : List α) :
    Prop where
  nodup : chosen.Nodup
  subset : chosen ⊆ eligible
  length_le : chosen.length ≤ batch
  group_le : ∀ k, (inGroup group k chosen).length ≤ slots k
  passed : ∀ a ∈ eligible, a ∉ chosen →
    (chosen.length = batch ∧ ∀ b ∈ chosen, r b a) ∨
      (inGroup group (group a) chosen).length = slots (group a) ∧ ∀ b ∈ inGroup group (group a) chosen, r b a

/-- The members of a group are the elements that belong to it. -/
theorem mem_inGroup {k : κ} {a : α} {elements : List α} :
    a ∈ inGroup group k elements ↔ a ∈ elements ∧ group a = k := by
  simp [inGroup]

/-- One list has at most as many elements of a group as another that contains it. -/
theorem length_inGroup_le {l l' : List α} (hl : l.Nodup) (hsub : l ⊆ l') (k : κ) :
    (inGroup group k l).length ≤ (inGroup group k l').length := by
  refine ((hl.filter _).subperm fun a ha => ?_).length_le
  obtain ⟨hmem, hk⟩ := mem_inGroup.mp ha
  exact mem_inGroup.mpr ⟨hsub hmem, hk⟩

/-- A list has as many elements as its groups together. -/
theorem length_eq_sum_inGroup {ks : List κ} (hks : ks.Nodup) {elements : List α}
    (hcover : ∀ a ∈ elements, group a ∈ ks) :
    elements.length = (ks.map fun k => (inGroup group k elements).length).sum := by
  induction ks generalizing elements with
  | nil =>
    cases elements with
    | nil => rfl
    | cons a elements => simpa using hcover a List.mem_cons_self
  | cons k ks ih =>
    obtain ⟨hk, hks⟩ := List.nodup_cons.mp hks
    have hothers : ∀ a ∈ elements.filter fun a => ¬ group a = k, group a ∈ ks := fun a ha => by
      obtain ⟨hmem, hne⟩ := List.mem_filter.mp ha
      exact (List.mem_cons.mp (hcover a hmem)).resolve_left (by simpa using hne)
    have hrest := ih hks hothers
    have hgroups : (ks.map fun k' => (inGroup group k' (elements.filter fun a => ¬ group a = k)).length) =
        ks.map fun k' => (inGroup group k' elements).length := by
      refine List.map_congr_left fun k' hk' => ?_
      rw [inGroup, inGroup, List.filter_filter]
      congr 1
      refine List.filter_congr fun a _ => ?_
      have hne : group a = k' → ¬ group a = k := by
        rintro rfl rfl
        exact hk hk'
      by_cases ha : group a = k' <;> simp [ha] at hne ⊢
      exact hne
    rw [List.map_cons, List.sum_cons, ← hgroups, ← hrest, inGroup,
      List.length_eq_length_filter_add fun a => decide (group a = k)]
    simp only [decide_not]

variable {r : α → α → Prop} {eligible chosen : List α}

/-- No element is passed over by a strictly later one unless its group is full. -/
theorem GreedyChoice.not_passed_over (h : GreedyChoice r group slots batch eligible chosen) {a b : α}
    (ha : a ∈ eligible) (hleft : a ∉ chosen) (hb : b ∈ chosen) (hlater : ¬ r b a) :
    (inGroup group (group a) chosen).length = slots (group a) := by
  rcases h.passed a ha hleft with ⟨-, hearlier⟩ | ⟨hfull, -⟩
  · exact absurd (hearlier b hb) hlater
  · exact hfull

section Ties

/-- The order `r` in which, among equals, the chosen elements come first. -/
def chosenFirst (r : α → α → Prop) (chosen : List α) (a b : α) : Prop := r a b ∧ (r b a → a ∈ chosen ∨ b ∉ chosen)

/-- An element that has to come before another one is scanned before it. -/
theorem mem_of_chosenFirst {pre post : List α} {a b : α}
    (hsorted : (pre ++ a :: post).Pairwise (chosenFirst r chosen)) (hb : b ∈ pre ++ a :: post) (hchosen : b ∈ chosen)
    (ha : a ∉ chosen) (hba : r b a) : b ∈ pre := by
  rcases List.mem_append.mp hb with hpre | hrest
  · exact hpre
  · rcases List.mem_cons.mp hrest with rfl | hpost
    · exact absurd hchosen ha
    · have hafter := List.rel_of_pairwise_cons (List.pairwise_append.mp hsorted).2.1 hpost
      rcases hafter.2 hba with hmem | hmem
      · exact absurd hmem ha
      · exact absurd hchosen hmem

variable [Std.Total r] [IsTrans α r]

instance (chosen : List α) : Std.Total (chosenFirst r chosen) where
  total a b := by
    by_cases hab : r a b
    · by_cases hba : r b a
      · by_cases ha : a ∈ chosen
        · exact .inl ⟨hab, fun _ => .inl ha⟩
        · exact .inr ⟨hba, fun _ => .inr ha⟩
      · exact .inl ⟨hab, fun h => absurd h hba⟩
    · have hba : r b a := (Std.Total.total a b).resolve_left hab
      exact .inr ⟨hba, fun h => absurd h hab⟩

instance (chosen : List α) : IsTrans α (chosenFirst r chosen) where
  trans a b c := by
    rintro ⟨hab, hfirst⟩ ⟨hbc, hsecond⟩
    refine ⟨trans_of r hab hbc, fun hca => ?_⟩
    have hba := hfirst (trans_of r hbc hca)
    have hcb := hsecond (trans_of r hca hab)
    tauto

/-- A greedy choice is what the scan takes, if among equals it comes to the chosen elements first. -/
theorem GreedyChoice.exists_order (h : GreedyChoice r group slots batch eligible chosen) (hnodup : eligible.Nodup) :
    ∃ order, Ranks r eligible order ∧ (greedy group slots batch order).Perm chosen := by
  classical
  let order := eligible.insertionSort (chosenFirst r chosen)
  have hperm : order.Perm eligible := List.perm_insertionSort _ _
  have hsorted : order.Pairwise (chosenFirst r chosen) := List.pairwise_insertionSort _ _
  have horder : order.Nodup := hperm.nodup_iff.mpr hnodup
  have hmem {b : α} (hb : b ∈ chosen) : b ∈ order := hperm.mem_iff.mpr (h.subset hb)
  refine ⟨order, ⟨hperm, hsorted.imp fun hab => hab.1⟩, ?_⟩
  have hscan : greedy group slots batch order = order.filter (fun a => a ∈ chosen) := by
    refine greedyFrom_eq_filter order [] fun pre a post hsplit => ?_
    rw [hsplit] at hsorted horder
    rw [List.nil_append]
    have hpre : (pre.filter fun a => a ∈ chosen).Nodup := (List.nodup_append.mp horder).1.filter _
    have hbefore {b : α} (hb : b ∈ chosen) (ha : a ∉ chosen) (hba : r b a) : b ∈ pre.filter fun a => a ∈ chosen :=
      List.mem_filter.mpr ⟨mem_of_chosenFirst hsorted (hsplit ▸ hmem hb) hb ha hba, by simpa using hb⟩
    have hsub : (pre.filter fun a => a ∈ chosen) ⊆ chosen := fun b hb => by simpa using (List.mem_filter.mp hb).2
    constructor
    · -- What was taken before is chosen, and this element is not among it.
      intro ha
      have ha : a ∈ chosen := by simpa using ha
      have hnot : a ∉ pre.filter fun a => a ∈ chosen := fun hin =>
        (List.nodup_append.mp horder).2.2 a (List.mem_filter.mp hin).1 a List.mem_cons_self rfl
      have hcons : (a :: pre.filter fun a => a ∈ chosen).Nodup := List.nodup_cons.mpr ⟨hnot, hpre⟩
      have hconsSub : (a :: pre.filter fun a => a ∈ chosen) ⊆ chosen := List.cons_subset.mpr ⟨ha, hsub⟩
      refine ⟨?_, ?_⟩
      · exact (hcons.subperm hconsSub).length_le.trans h.length_le
      · have hchosen : (inGroup group (group a) (a :: pre.filter fun a => a ∈ chosen)).length ≤
            (inGroup group (group a) chosen).length := length_inGroup_le hcons hconsSub (group a)
        rw [inGroup, List.filter_cons_of_pos (by simp), List.length_cons] at hchosen
        exact hchosen.trans (h.group_le (group a))
    · rintro ⟨hbatch, hgroup⟩
      by_contra ha
      have ha : a ∉ chosen := by simpa using ha
      have haEligible : a ∈ eligible := by
        rw [← hperm.mem_iff, hsplit]
        simp
      rcases h.passed a haEligible ha with ⟨hfull, hearlier⟩ | ⟨hfull, hearlier⟩
      · have hle := (h.nodup.subperm fun b hb => hbefore hb ha (hearlier b hb)).length_le
        omega
      · have hsubGroup : inGroup group (group a) chosen ⊆
            inGroup group (group a) (pre.filter fun a => a ∈ chosen) := fun b hb =>
          mem_inGroup.mpr ⟨hbefore (mem_inGroup.mp hb).1 ha (hearlier b hb), (mem_inGroup.mp hb).2⟩
        have hle := ((h.nodup.filter _).subperm hsubGroup).length_le
        simp only [inGroup] at hfull hgroup hle
        omega
  rw [hscan]
  refine (List.perm_ext_iff_of_nodup (horder.filter _) h.nodup).mpr fun a => ?_
  simp only [List.mem_filter, decide_eq_true_eq]
  exact ⟨fun ha => ha.2, fun ha => ⟨hmem ha, ha⟩⟩

end Ties

/-! ## The choice in two stages -/

section Stages

variable {order : κ → List α} {ranked : List α} (h : SelectsBy r group slots batch eligible order ranked chosen)

include h

/-- What is ranked stands within the slots of its group. -/
theorem SelectsBy.mem_take {a : α} (ha : a ∈ ranked) : a ∈ (order (group a)).take (slots (group a)) :=
  (h.kept (group a)).mem_iff.mp (mem_inGroup.mpr ⟨ha, rfl⟩)

/-- What is ranked is eligible. -/
theorem SelectsBy.ranked_subset : ranked ⊆ eligible := fun a ha =>
  (mem_inGroup.mp ((h.groups (group a)).perm.mem_iff.mp (List.mem_of_mem_take (h.mem_take ha)))).1

/-- It is ranked once. -/
theorem SelectsBy.nodup_ranked (hnodup : eligible.Nodup) : ranked.Nodup := by
  classical
  refine List.nodup_iff_count_le_one.mpr fun a => ?_
  have hgroup : (inGroup group (group a) ranked).Nodup := by
    refine (h.kept (group a)).nodup_iff.mpr ((List.take_sublist _ _).nodup ?_)
    exact (h.groups (group a)).perm.nodup_iff.mpr (hnodup.filter _)
  have hcount := List.nodup_iff_count_le_one.mp hgroup a
  rwa [inGroup, List.count_filter (by simp)] at hcount

/-- What is chosen is ranked, in the same order. -/
theorem SelectsBy.chosen_sublist : chosen.Sublist ranked := by
  rw [h.chosen_eq]
  exact List.take_sublist _ _

/-- A group has as many ranked members as its slots and its eligible members allow. -/
theorem SelectsBy.length_inGroup_ranked (k : κ) :
    (inGroup group k ranked).length = min (slots k) (inGroup group k eligible).length := by
  rw [(h.kept k).length_eq, List.length_take, (h.groups k).perm.length_eq]

/-- An element that only the last limit leaves out. -/
theorem SelectsBy.passed_by_batch {a : α} (ha : a ∈ ranked) (hleft : a ∉ chosen) :
    chosen.length = batch ∧ ∀ b ∈ chosen, r b a := by
  have hdrop : a ∈ ranked.drop batch := by
    rw [← List.take_append_drop batch ranked] at ha
    refine (List.mem_append.mp ha).resolve_left fun htake => hleft ?_
    rwa [h.chosen_eq]
  have hlt : batch < ranked.length := by
    by_contra hge
    simp [List.drop_eq_nil_of_le (Nat.le_of_not_lt hge)] at hdrop
  refine ⟨by rw [h.chosen_eq, List.length_take]; omega, fun b hb => ?_⟩
  have hsorted := h.sorted
  rw [← List.take_append_drop batch ranked] at hsorted
  rw [h.chosen_eq] at hb
  exact (List.pairwise_append.mp hsorted).2.2 b hb a hdrop

/-- An element that the limit of its group leaves out. -/
theorem SelectsBy.passed_in_group {a : α} (ha : a ∈ eligible) (hleft : a ∉ ranked) :
    (inGroup group (group a) ranked).length = slots (group a) ∧ ∀ b ∈ inGroup group (group a) ranked, r b a := by
  have hgroup := h.groups (group a)
  have hdrop : a ∈ (order (group a)).drop (slots (group a)) := by
    have hmem : a ∈ order (group a) := hgroup.perm.mem_iff.mpr (mem_inGroup.mpr ⟨ha, rfl⟩)
    rw [← List.take_append_drop (slots (group a)) (order (group a))] at hmem
    refine (List.mem_append.mp hmem).resolve_left fun htake => hleft ?_
    exact (mem_inGroup.mp ((h.kept (group a)).mem_iff.mpr htake)).1
  have hlt : slots (group a) < (order (group a)).length := by
    by_contra hge
    simp [List.drop_eq_nil_of_le (Nat.le_of_not_lt hge)] at hdrop
  refine ⟨by rw [(h.kept (group a)).length_eq, List.length_take]; omega, fun b hb => ?_⟩
  have hsorted := hgroup.sorted
  rw [← List.take_append_drop (slots (group a)) (order (group a))] at hsorted
  exact (List.pairwise_append.mp hsorted).2.2 b ((h.kept (group a)).mem_iff.mp hb) a hdrop

/-- The choice in two stages is greedy. -/
theorem SelectsBy.greedyChoice [IsTrans α r] (hnodup : eligible.Nodup) :
    GreedyChoice r group slots batch eligible chosen := by
  have hranked := h.nodup_ranked hnodup
  have hsub := h.chosen_sublist
  refine ⟨hsub.nodup hranked, fun a ha => h.ranked_subset (hsub.subset ha), ?_, fun k => ?_, fun a ha hleft => ?_⟩
  · rw [h.chosen_eq]
    exact List.length_take_le _ _
  · refine (length_inGroup_le (hsub.nodup hranked) hsub.subset k).trans ?_
    rw [h.length_inGroup_ranked]
    exact Nat.min_le_left _ _
  · by_cases hmem : a ∈ ranked
    · exact .inl (h.passed_by_batch hmem hleft)
    · obtain ⟨hfull, hearlier⟩ := h.passed_in_group ha hmem
      by_cases hall : inGroup group (group a) ranked ⊆ chosen
      · -- The group has all its slots among the chosen ones.
        refine .inr ⟨?_, fun b hb => ?_⟩
        · refine le_antisymm ?_ ?_
          · rw [← hfull]
            exact length_inGroup_le (hsub.nodup hranked) hsub.subset _
          · rw [← hfull]
            refine ((hranked.filter _).subperm fun b hb => ?_).length_le
            exact mem_inGroup.mpr ⟨hall hb, (mem_inGroup.mp hb).2⟩
        · obtain ⟨hb, hk⟩ := mem_inGroup.mp hb
          exact hearlier b (mem_inGroup.mpr ⟨hsub.subset hb, hk⟩)
      · -- One of the elements that take the slots is itself left out by the last limit.
        simp only [List.subset_def, not_forall] at hall
        obtain ⟨c, hc, hcleft⟩ := hall
        obtain ⟨hbatch, hbefore⟩ := h.passed_by_batch (mem_inGroup.mp hc).1 hcleft
        exact .inl ⟨hbatch, fun b hb => trans_of r (hbefore b hb) (hearlier c hc)⟩

/-- As many elements are chosen as the limits allow. -/
theorem SelectsBy.length_chosen {ks : List κ} (hks : ks.Nodup) (hcover : ∀ a ∈ eligible, group a ∈ ks) :
    chosen.length = min batch ((ks.map fun k => min (slots k) (inGroup group k eligible).length).sum) := by
  rw [h.chosen_eq, List.length_take, length_eq_sum_inGroup hks fun a ha => hcover a (h.ranked_subset ha)]
  simp only [h.length_inGroup_ranked]

end Stages

section Rounds

/-- The elements of a group among those that are listed group by group. -/
theorem inGroup_flatMap {ks : List κ} (hks : ks.Nodup) {found : κ → List α} (hfound : ∀ k, ∀ a ∈ found k, group a = k)
    (k : κ) : inGroup group k (ks.flatMap found) = if k ∈ ks then found k else [] := by
  induction ks with
  | nil => rfl
  | cons k' ks ih =>
    obtain ⟨hfresh, hks⟩ := List.nodup_cons.mp hks
    have hsplit : inGroup group k ((k' :: ks).flatMap found) =
        inGroup group k (found k') ++ inGroup group k (ks.flatMap found) := by
      simp [inGroup]
    rw [hsplit, ih hks]
    by_cases hk : k = k'
    · subst hk
      have hall : inGroup group k (found k) = found k :=
        List.filter_eq_self.mpr fun a ha => by simpa using hfound k a ha
      simp [hall, hfresh]
    · have hnone : inGroup group k (found k') = [] :=
        List.filter_eq_nil_iff.mpr fun a ha => by simpa [hfound k' a ha] using fun h => hk h.symm
      simp [hnone, hk]

variable [DecidableRel r] [Std.Total r] [IsTrans α r]

/-- What the subqueries of all groups find, sorted and cut at the batch size, is a choice in two stages. -/
theorem selects_of_flatMap {ks : List κ} (hks : ks.Nodup) (hcover : ∀ a ∈ eligible, group a ∈ ks) {found : List α}
    (hfound : found.Perm (ks.flatMap fun k => ((inGroup group k eligible).insertionSort r).take (slots k))) :
    Selects r group slots batch eligible ((found.insertionSort r).take batch) := by
  refine ⟨fun k => (inGroup group k eligible).insertionSort r, found.insertionSort r, ?_, ?_, ?_, rfl⟩
  · exact fun k => ⟨List.perm_insertionSort r _, List.pairwise_insertionSort r _⟩
  · intro k
    have hgroup : (inGroup group k (found.insertionSort r)).Perm (inGroup group k (ks.flatMap fun k =>
        ((inGroup group k eligible).insertionSort r).take (slots k))) :=
      ((List.perm_insertionSort r found).trans hfound).filter _
    refine hgroup.trans (.of_eq ?_)
    have hfound (k : κ) (a : α) (ha : a ∈ ((inGroup group k eligible).insertionSort r).take (slots k)) : group a = k :=
      (mem_inGroup.mp ((List.mem_insertionSort r).mp (List.mem_of_mem_take ha))).2
    rw [inGroup_flatMap hks hfound]
    split_ifs with hk
    · rfl
    · have hnone : inGroup group k eligible = [] :=
        List.filter_eq_nil_iff.mpr fun a ha hgroup => hk (of_decide_eq_true hgroup ▸ hcover a ha)
      simp [hnone]
  · exact List.pairwise_insertionSort r _

end Rounds

end Selection
