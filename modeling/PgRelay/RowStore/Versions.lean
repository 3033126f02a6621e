import PgRelay.RowStore.Table
import Mathlib.Data.List.Induction

/-!
# Uncommitted versions and commit-order replay

A transaction keeps the row versions it has written until it commits. Each version was computed
from the row the transaction saw when it wrote, so applying the versions at commit time is only
meaningful if those rows are still there. Row locks give exactly that: the commits of others
leave the written keys alone. Under this condition a commit equals running the transaction's
operations one after the other on the committed table, and the committed table is the replay of
all committed operations in commit order.

The operations are abstract: a relation says what one operation may do to the row of its key.
-/

namespace RowStore

variable {K R E : Type} {key : R → K}

/-- The operations on the rows of a table: the key each one targets, and how it may change the
row of that key, where `none` stands for a missing row. -/
structure Dynamics (key : R → K) (E : Type) where
  target : E → K
  acts : E → Option R → Option R → Prop
  acts_key : ∀ {e before after}, acts e before after →
    (∀ r, before = some r → key r = target e) → ∀ r, after = some r → key r = target e

/-- An operation together with the row version it has written. -/
structure Change (E R : Type) where
  event : E
  version : Option R

namespace Dynamics

variable [DecidableEq K] (D : Dynamics key E)

/-- Install one written version. -/
def applyChange (tbl : Table key) (c : Change E R) : Table key :=
  tbl.write (D.target c.event) c.version

/-- Install a transaction's versions in the order in which it wrote them. -/
def applyChanges (tbl : Table key) (cs : List (Change E R)) : Table key :=
  cs.foldl D.applyChange tbl

/-- Every version is a legal outcome of its operation on the row found at its turn. -/
def Consistent : Table key → List (Change E R) → Prop
  | _, [] => True
  | tbl, c :: cs => D.acts c.event (tbl.get (D.target c.event)) c.version ∧
      Consistent (D.applyChange tbl c) cs

/-- The operations `events`, all on the same row, take it from one version to another. -/
inductive Evolves : List E → Option R → Option R → Prop
  | nil (row : Option R) : Evolves [] row row
  | snoc {events : List E} {e : E} {start before after : Option R} :
      Evolves events start before → D.acts e before after → Evolves (events ++ [e]) start after

/-- The table is the outcome of running the operations of the log one by one from the empty table. -/
def Replays (log : List E) (tbl : Table key) : Prop :=
  ∃ cs, cs.map Change.event = log ∧ D.Consistent Table.empty cs ∧ D.applyChanges Table.empty cs = tbl

variable {D}

/-- A legal version has the key its operation targets. -/
theorem version_key {tbl : Table key} {c : Change E R}
    (h : D.acts c.event (tbl.get (D.target c.event)) c.version) :
    ∀ r, c.version = some r → key r = D.target c.event :=
  D.acts_key h fun _ hr => Table.key_of_get hr

/-- Installing a legal version changes the row of its key only. -/
theorem get_applyChange {tbl : Table key} {c : Change E R}
    (h : D.acts c.event (tbl.get (D.target c.event)) c.version) (k : K) :
    (D.applyChange tbl c).get k = if D.target c.event = k then c.version else tbl.get k :=
  Table.get_write tbl _ _ (version_key h) k

/-- No changes leave the table as it is. -/
@[simp] theorem applyChanges_nil (tbl : Table key) : D.applyChanges tbl [] = tbl := rfl

/-- A single change. -/
theorem applyChanges_singleton (tbl : Table key) (c : Change E R) : D.applyChanges tbl [c] = D.applyChange tbl c := rfl

/-- Changes are applied one part after the other. -/
@[simp] theorem applyChanges_append (tbl : Table key) (cs ds : List (Change E R)) :
    D.applyChanges tbl (cs ++ ds) = D.applyChanges (D.applyChanges tbl cs) ds := by
  simp [applyChanges]

/-- Each installed version changes a count by one at most. -/
theorem count_applyChanges (tbl : Table key) (cs : List (Change E R)) (p : R → Bool) :
    (D.applyChanges tbl cs).count p ≤ tbl.count p + cs.length ∧
      tbl.count p ≤ (D.applyChanges tbl cs).count p + cs.length := by
  induction cs generalizing tbl with
  | nil => exact ⟨Nat.le_refl _, Nat.le_refl _⟩
  | cons c cs ih =>
    obtain ⟨hmore, hless⟩ := ih (D.applyChange tbl c)
    have hwrite : (D.applyChange tbl c).count p ≤ tbl.count p + 1 :=
      Nat.le_trans (tbl.count_write_le _ _ p) (Nat.add_le_add_left (by split <;> simp) _)
    have hback : tbl.count p ≤ (D.applyChange tbl c).count p + 1 := tbl.count_le_count_write _ _ p
    rw [applyChanges, List.foldl_cons, List.length_cons]
    rw [applyChanges] at hmore hless
    omega

/-- Consistency of a longer list of writes splits at any point. -/
theorem consistent_append (tbl : Table key) (cs ds : List (Change E R)) :
    D.Consistent tbl (cs ++ ds) ↔ D.Consistent tbl cs ∧ D.Consistent (D.applyChanges tbl cs) ds := by
  induction cs generalizing tbl with
  | nil => simp [Consistent]
  | cons c cs ih => simp only [List.cons_append, Consistent, ih, applyChanges, List.foldl_cons, and_assoc]

/-- One further write is consistent when it is legal on the table the earlier ones left. -/
theorem consistent_snoc (tbl : Table key) (cs : List (Change E R)) (c : Change E R) :
    D.Consistent tbl (cs ++ [c]) ↔ D.Consistent tbl cs ∧
      D.acts c.event ((D.applyChanges tbl cs).get (D.target c.event)) c.version := by
  simp [consistent_append, Consistent]

/-- The rows of other keys are those of the table before. -/
theorem Consistent.get_of_untouched {tbl : Table key} {cs : List (Change E R)}
    (h : D.Consistent tbl cs) {k : K} (hk : ∀ c ∈ cs, D.target c.event ≠ k) :
    (D.applyChanges tbl cs).get k = tbl.get k := by
  induction cs generalizing tbl with
  | nil => rfl
  | cons c cs ih =>
    obtain ⟨hacts, hrest⟩ := h
    calc
      (D.applyChanges tbl (c :: cs)).get k = (D.applyChanges (D.applyChange tbl c) cs).get k := rfl
      _ = (D.applyChange tbl c).get k := ih hrest fun d hd => hk d (List.mem_cons_of_mem _ hd)
      _ = tbl.get k := by rw [get_applyChange hacts, if_neg (hk c List.mem_cons_self)]

/-- Writes stay consistent, with the same outcome, on any table that agrees on the written keys. -/
theorem Consistent.congr {tbl tbl' : Table key} {cs : List (Change E R)} (h : D.Consistent tbl cs)
    (hagree : ∀ c ∈ cs, tbl'.get (D.target c.event) = tbl.get (D.target c.event)) :
    D.Consistent tbl' cs ∧
      ∀ k, tbl'.get k = tbl.get k → (D.applyChanges tbl' cs).get k = (D.applyChanges tbl cs).get k := by
  induction cs generalizing tbl tbl' with
  | nil => exact ⟨trivial, fun k hk => hk⟩
  | cons c cs ih =>
    obtain ⟨hacts, hrest⟩ := h
    have hacts' : D.acts c.event (tbl'.get (D.target c.event)) c.version := by
      rw [hagree c List.mem_cons_self]
      exact hacts
    have hstep (k : K) (hk : tbl'.get k = tbl.get k) :
        (D.applyChange tbl' c).get k = (D.applyChange tbl c).get k := by
      rw [get_applyChange hacts', get_applyChange hacts, hk]
    obtain ⟨hcons, hget⟩ := ih hrest fun d hd => hstep _ (hagree d (List.mem_cons_of_mem _ hd))
    exact ⟨⟨hacts', hcons⟩, fun k hk => hget k (hstep k hk)⟩

/-- Writes of pairwise distinct keys are consistent when each is legal on the table before them. -/
theorem consistent_of_nodup {tbl : Table key} {cs : List (Change E R)}
    (hnodup : (cs.map fun c => D.target c.event).Nodup)
    (hacts : ∀ c ∈ cs, D.acts c.event (tbl.get (D.target c.event)) c.version) :
    D.Consistent tbl cs := by
  induction cs generalizing tbl with
  | nil => trivial
  | cons c cs ih =>
    obtain ⟨hfresh, hrest⟩ := List.nodup_cons.mp hnodup
    have hc := hacts c List.mem_cons_self
    refine ⟨hc, ih hrest fun d hd => ?_⟩
    have hne : D.target c.event ≠ D.target d.event := fun heq =>
      hfresh (List.mem_map.mpr ⟨d, hd, heq.symm⟩)
    rw [get_applyChange hc, if_neg hne]
    exact hacts d (List.mem_cons_of_mem _ hd)

/-- Writes of pairwise distinct keys leave what each of them has written. -/
theorem get_applyChanges_of_mem {tbl : Table key} {cs : List (Change E R)}
    (hnodup : (cs.map fun c => D.target c.event).Nodup)
    (hacts : ∀ c ∈ cs, D.acts c.event (tbl.get (D.target c.event)) c.version) {c : Change E R} (hc : c ∈ cs) :
    (D.applyChanges tbl cs).get (D.target c.event) = c.version := by
  obtain ⟨before, later, rfl⟩ := List.append_of_mem hc
  obtain ⟨-, hfirst, hrest⟩ := (consistent_append _ _ _).mp (consistent_of_nodup hnodup hacts)
  rw [applyChanges_append]
  calc
    _ = (D.applyChange (D.applyChanges tbl before) c).get (D.target c.event) := by
      refine hrest.get_of_untouched fun d hd heq => ?_
      rw [List.map_append, List.nodup_append] at hnodup
      exact (List.nodup_cons.mp hnodup.2.1).1 (List.mem_map.mpr ⟨d, hd, heq⟩)
    _ = c.version := by rw [get_applyChange hfirst, if_pos rfl]

/-- Writes add at most the written rows to a count. -/
theorem count_applyChanges_le (tbl : Table key) (cs : List (Change E R)) (p : R → Bool) :
    (D.applyChanges tbl cs).count p ≤ tbl.count p + cs.countP fun c => c.version.any p := by
  induction cs generalizing tbl with
  | nil => simp
  | cons c cs ih =>
    have hfirst := tbl.count_write_le (D.target c.event) c.version p
    have hrest := ih (D.applyChange tbl c)
    change (D.applyChanges (D.applyChange tbl c) cs).count p ≤ _
    change (D.applyChange tbl c).count p ≤ _ at hfirst
    rw [List.countP_cons]
    omega

/-- What consistent writes do to one row is what their operations on that row do. -/
theorem Consistent.evolves {tbl : Table key} {cs : List (Change E R)} (h : D.Consistent tbl cs)
    (k : K) :
    D.Evolves ((cs.map Change.event).filter fun e => D.target e = k) (tbl.get k)
      ((D.applyChanges tbl cs).get k) := by
  induction cs using List.reverseRecOn with
  | nil => exact .nil _
  | append_singleton cs c ih =>
    obtain ⟨hcs, hc⟩ := (consistent_snoc tbl cs c).mp h
    rw [applyChanges_append]
    change D.Evolves _ _ ((D.applyChange (D.applyChanges tbl cs) c).get k)
    rw [get_applyChange hc, List.map_append, List.filter_append]
    by_cases hk : D.target c.event = k
    · simpa [hk] using (ih hcs).snoc (by rw [hk] at hc; exact hc)
    · simpa [hk] using ih hcs

omit [DecidableEq K] in
/-- Operations evolve a row in two parts wherever they are split. -/
theorem Evolves.of_append {events events' : List E} {start row : Option R}
    (h : D.Evolves (events ++ events') start row) :
    ∃ middle, D.Evolves events start middle ∧ D.Evolves events' middle row := by
  induction events' using List.reverseRecOn generalizing row with
  | nil => exact ⟨row, by simpa using h, .nil row⟩
  | append_singleton events' e ih =>
    rw [← List.append_assoc] at h
    generalize hall : events ++ events' ++ [e] = all at h
    cases h with
    | nil => simp at hall
    | snoc hbefore hacts =>
      obtain ⟨rfl, hlast⟩ := List.append_inj' hall rfl
      obtain rfl : e = _ := by simpa using hlast
      obtain ⟨middle, hfirst, hsecond⟩ := ih hbefore
      exact ⟨middle, hfirst, hsecond.snoc hacts⟩

/-- The empty log leads to the empty table. -/
theorem replays_nil : D.Replays [] Table.empty := ⟨[], rfl, trivial, rfl⟩

/-- Committing consistent writes appends their operations to the replayed log. -/
theorem Replays.commit {log : List E} {tbl : Table key} {cs : List (Change E R)}
    (h : D.Replays log tbl) (hcs : D.Consistent tbl cs) :
    D.Replays (log ++ cs.map Change.event) (D.applyChanges tbl cs) := by
  obtain ⟨ds, rfl, hds, rfl⟩ := h
  exact ⟨ds ++ cs, List.map_append, (consistent_append _ _ _).mpr ⟨hds, hcs⟩, applyChanges_append _ _ _⟩

/-- Each committed row has evolved from nothing by the logged operations on it. -/
theorem Replays.evolves {log : List E} {tbl : Table key} (h : D.Replays log tbl) (k : K) :
    D.Evolves (log.filter fun e => D.target e = k) none (tbl.get k) := by
  obtain ⟨cs, rfl, hcs, rfl⟩ := h
  exact hcs.evolves k

end Dynamics

end RowStore
