import PgRelay.PyText.Str
import PgRelay.PyText.Value

/-!
# Redaction

`redact_mapping`, which `redact_event` applies to every log event. It goes down into the dictionaries and
lists it finds under a key that is not secret, and into the dictionaries that are items of such a list.
An item that is itself a list is kept as it is, whatever it holds.

`str.lower` is a parameter: nothing here depends on what it makes of a key.
-/

namespace PgRelay

open PyText

/-- `SECRET_HEADER_NAMES`. -/
def secretHeaderNames : List PyStr :=
  ["authorization", "proxy-authorization", "cookie", "set-cookie", "x-api-key"].map ofString

/-- The keys that `redact_mapping` redacts besides. -/
def redactedFields : List PyStr := ["payload", "headers", "metadata"].map ofString

/-- `REDACTED_VALUE`. -/
def redactedValue : PyValue := text "<redacted>"

section Redaction

variable (lower : PyStr → PyStr)

/-- The test of `redact_mapping` on a key. -/
def isSecret (key : PyStr) : Bool :=
  decide (lower key ∈ secretHeaderNames) || decide (lower key ∈ redactedFields)

mutual

/-- What `redact_mapping` puts for the value of a key that is not secret. -/
def redactValue : PyValue → PyValue
  | .dict items => .dict (redactMapping items)
  | .list items => .list (redactItems items)
  | v => v

/-- `redact_mapping`. -/
def redactMapping : List (PyStr × PyValue) → List (PyStr × PyValue)
  | [] => []
  | (key, v) :: items => (key, if isSecret lower key then redactedValue else redactValue v) :: redactMapping items

/-- The comprehension over the items of a list. -/
def redactItems : List PyValue → List PyValue
  | [] => []
  | v :: items => redactItem v :: redactItems items

/-- `redact_mapping(child) if isinstance(child, Mapping) else child`. -/
def redactItem : PyValue → PyValue
  | .dict items => .dict (redactMapping items)
  | v => v

end

/-- The value shows an entry that has to be redacted. -/
def Exposes (v : PyValue) : Prop := v.HasItem fun item => isSecret lower item.1 = true ∧ item.2 ≠ redactedValue

/-- `redact_mapping` comes to the list as the value of a key that is not secret. -/
inductive ComesToList : List (PyStr × PyValue) → List PyValue → Prop
  | here {items : List (PyStr × PyValue)} {key : PyStr} {found : List PyValue} (hmem : (key, .list found) ∈ items)
      (hkey : isSecret lower key = false) : ComesToList items found
  | inDict {items inner : List (PyStr × PyValue)} {key : PyStr} {found : List PyValue}
      (hmem : (key, .dict inner) ∈ items) (hkey : isSecret lower key = false) (h : ComesToList inner found) :
      ComesToList items found
  | inList {items inner : List (PyStr × PyValue)} {key : PyStr} {list found : List PyValue}
      (hmem : (key, .list list) ∈ items) (hkey : isSecret lower key = false) (hinner : .dict inner ∈ list)
      (h : ComesToList inner found) : ComesToList items found

/-- A list that `redact_mapping` comes to has an item that is a list and shows an entry that has to be
redacted. -/
def ShowsNested (items : List (PyStr × PyValue)) : Prop :=
  ∃ found, ComesToList lower items found ∧ ∃ inner, .list inner ∈ found ∧ Exposes lower (.list inner)

/-- One value is the other one with some of the values under secret keys replaced by the marker: scalars,
keys and lengths are the same elsewhere. -/
inductive Preserves : PyValue → PyValue → Prop
  | scalar {v : PyValue} (hv : v.isScalar = true) : Preserves v v
  | emptyList : Preserves (.list []) (.list [])
  | item {v v' : PyValue} {items items' : List PyValue} (h : Preserves v v')
      (hitems : Preserves (.list items) (.list items')) : Preserves (.list (v :: items)) (.list (v' :: items'))
  | emptyDict : Preserves (.dict []) (.dict [])
  | redacted {key : PyStr} {v : PyValue} {items items' : List (PyStr × PyValue)} (hkey : isSecret lower key = true)
      (hitems : Preserves (.dict items) (.dict items')) :
      Preserves (.dict ((key, v) :: items)) (.dict ((key, redactedValue) :: items'))
  | value {key : PyStr} {v v' : PyValue} {items items' : List (PyStr × PyValue)} (h : Preserves v v')
      (hitems : Preserves (.dict items) (.dict items')) :
      Preserves (.dict ((key, v) :: items)) (.dict ((key, v') :: items'))

/-- What redaction is for: nothing that has to be redacted is shown, everything else is kept, and a
second redaction changes nothing. -/
structure RedactionComplete (items : List (PyStr × PyValue)) : Prop where
  hidden : ¬ Exposes lower (.dict (redactMapping lower items))
  preserved : Preserves lower (.dict items) (.dict (redactMapping lower items))
  idempotent : redactMapping lower (redactMapping lower items) = redactMapping lower items

variable {lower}

/-! ## The recursion -/

/-- A mapping is redacted item by item. -/
theorem redactMapping_eq_map (items : List (PyStr × PyValue)) : redactMapping lower items =
    items.map fun item => (item.1, if isSecret lower item.1 then redactedValue else redactValue lower item.2) := by
  induction items with
  | nil => rfl
  | cons item items ih => simp [redactMapping, ih]

/-- So is a list. -/
theorem redactItems_eq_map (items : List PyValue) : redactItems lower items = items.map (redactItem lower) := by
  induction items with
  | nil => rfl
  | cons v items ih => simp [redactItems, ih]

/-- A scalar stays as it is. -/
theorem redactValue_scalar {v : PyValue} (hv : v.isScalar = true) : redactValue lower v = v := by
  cases v <;> first | rfl | cases hv

/-- So does a scalar in a list. -/
theorem redactItem_scalar {v : PyValue} (hv : v.isScalar = true) : redactItem lower v = v := by
  cases v <;> first | rfl | cases hv

/-! ## What is kept -/

/-- A list whose elements are preserved is preserved. -/
theorem preserves_items {items : List PyValue} {f : PyValue → PyValue} (h : ∀ v ∈ items, Preserves lower v (f v)) :
    Preserves lower (.list items) (.list (items.map f)) := by
  induction items with
  | nil => exact .emptyList
  | cons v items ih =>
    exact .item (h v List.mem_cons_self) (ih fun w hw => h w (List.mem_cons_of_mem _ hw))

/-- So is a mapping whose other values are preserved. -/
theorem preserves_mapping {items : List (PyStr × PyValue)} {f : PyStr × PyValue → PyValue}
    (h : ∀ item ∈ items, isSecret lower item.1 = true ∧ f item = redactedValue ∨ Preserves lower item.2 (f item)) :
    Preserves lower (.dict items) (.dict (items.map fun item => (item.1, f item))) := by
  induction items with
  | nil => exact .emptyDict
  | cons item items ih =>
    have hrest := ih fun other hother => h other (List.mem_cons_of_mem _ hother)
    rcases h item List.mem_cons_self with ⟨hkey, hvalue⟩ | hvalue
    · rw [List.map_cons, hvalue]
      exact .redacted hkey hrest
    · exact .value hvalue hrest

/-- What stays as it is is preserved. -/
theorem preserves_refl (v : PyValue) : Preserves lower v v := by
  induction v using PyValue.tree with
  | scalar v hv => exact .scalar hv
  | list items ih => simpa using preserves_items ih
  | dict items ih => simpa using preserves_mapping (f := Prod.snd) fun item hitem => .inr (ih item hitem)

/-- Going into a dictionary keeps what it does not redact, if going into its values does. -/
theorem preserves_redactMapping {items : List (PyStr × PyValue)}
    (h : ∀ item ∈ items, Preserves lower item.2 (redactValue lower item.2)) :
    Preserves lower (.dict items) (.dict (redactMapping lower items)) := by
  rw [redactMapping_eq_map]
  refine preserves_mapping fun item hitem => ?_
  cases hkey : isSecret lower item.1 with
  | true => exact .inl ⟨rfl, rfl⟩
  | false => exact .inr (h item hitem)

/-- Redaction preserves everything but the secret values. -/
theorem preserves_redactValue (v : PyValue) : Preserves lower v (redactValue lower v) := by
  suffices hboth : Preserves lower v (redactValue lower v) ∧ Preserves lower v (redactItem lower v) from hboth.1
  induction v using PyValue.tree with
  | scalar v hv =>
    rw [redactValue_scalar hv, redactItem_scalar hv]
    exact ⟨.scalar hv, .scalar hv⟩
  | list items ih =>
    refine ⟨?_, preserves_refl _⟩
    rw [redactValue, redactItems_eq_map]
    exact preserves_items fun v hv => (ih v hv).2
  | dict items ih =>
    have hmapping := preserves_redactMapping fun item hitem => (ih item hitem).1
    exact ⟨hmapping, hmapping⟩

/-! ## A second redaction -/

/-- A redacted mapping stays as it is, if its values do. -/
theorem redactMapping_idem {items : List (PyStr × PyValue)}
    (h : ∀ item ∈ items, redactValue lower (redactValue lower item.2) = redactValue lower item.2) :
    redactMapping lower (redactMapping lower items) = redactMapping lower items := by
  simp only [redactMapping_eq_map, List.map_map]
  refine List.map_congr_left fun item hitem => ?_
  cases hkey : isSecret lower item.1 with
  | true => simp [hkey]
  | false => simp [hkey, h item hitem]

/-- A redacted value stays as it is. -/
theorem redactValue_idem (v : PyValue) : redactValue lower (redactValue lower v) = redactValue lower v := by
  suffices hboth : redactValue lower (redactValue lower v) = redactValue lower v ∧
      redactItem lower (redactItem lower v) = redactItem lower v from hboth.1
  induction v using PyValue.tree with
  | scalar v hv => simp only [redactValue_scalar hv, redactItem_scalar hv, and_self]
  | list items ih =>
    refine ⟨?_, rfl⟩
    simp only [redactValue, redactItems_eq_map, List.map_map]
    exact congrArg PyValue.list (List.map_congr_left fun v hv => (ih v hv).2)
  | dict items ih =>
    have hmapping := redactMapping_idem fun item hitem => (ih item hitem).1
    simp only [redactValue, redactItem, hmapping, and_self]

/-! ## What is shown -/

/-- A scalar exposes nothing. -/
theorem not_exposes_scalar {v : PyValue} (hv : v.isScalar = true) : ¬ Exposes lower v := hasItem_scalar hv

/-- What a redacted dictionary shows is below one of its keys that are not secret. -/
theorem exposes_redactMapping {items : List (PyStr × PyValue)} : Exposes lower (.dict (redactMapping lower items)) ↔
    ∃ item ∈ items, isSecret lower item.1 = false ∧ Exposes lower (redactValue lower item.2) := by
  rw [redactMapping_eq_map, Exposes, hasItem_dict]
  simp only [List.mem_map, exists_exists_and_eq_and]
  refine exists_congr fun item => and_congr_right fun _ => ?_
  cases hkey : isSecret lower item.1 with
  | true =>
    have hmarker : ¬ Exposes lower redactedValue := not_exposes_scalar rfl
    simpa [Exposes] using hmarker
  | false => simp [Exposes]

/-- A redacted list exposes what its elements do. -/
theorem exposes_redactItems {items : List PyValue} : Exposes lower (.list (redactItems lower items)) ↔
    ∃ v ∈ items, Exposes lower (redactItem lower v) := by
  rw [redactItems_eq_map, Exposes, hasItem_list]
  simp only [List.mem_map, exists_exists_and_eq_and, Exposes]

/-- What a redacted list shows is in one of its items that are lists, or in a dictionary it has gone
into. -/
theorem exposes_redactItem {v : PyValue} : Exposes lower (redactItem lower v) ↔
    (∃ inner, v = .list inner ∧ Exposes lower (.list inner)) ∨
      ∃ items, v = .dict items ∧ Exposes lower (.dict (redactMapping lower items)) := by
  cases v with
  | list inner => simp [redactItem]
  | dict items => simp [redactItem]
  | _ => simpa [redactItem] using not_exposes_scalar rfl

/-- A redacted value exposes something only in a list or in a mapping. -/
theorem exposes_redactValue {v : PyValue} : Exposes lower (redactValue lower v) ↔
    (∃ found, v = .list found ∧ ∃ w ∈ found, Exposes lower (redactItem lower w)) ∨
      ∃ items, v = .dict items ∧ Exposes lower (.dict (redactMapping lower items)) := by
  cases v with
  | list found => simp [redactValue, exposes_redactItems]
  | dict items => simp [redactValue]
  | _ => simpa [redactValue] using not_exposes_scalar rfl

/-- What the nested lists of a dictionary show, by the ways in which the redaction comes to them. -/
theorem showsNested_iff {items : List (PyStr × PyValue)} : ShowsNested lower items ↔
    ∃ item ∈ items, isSecret lower item.1 = false ∧
      ((∃ found, item.2 = .list found ∧ ∃ w ∈ found, (∃ inner, w = .list inner ∧ Exposes lower (.list inner)) ∨
        ∃ inner, w = .dict inner ∧ ShowsNested lower inner) ∨
      ∃ inner, item.2 = .dict inner ∧ ShowsNested lower inner) := by
  constructor
  · rintro ⟨found, hcomes, inner, hinner, hexposes⟩
    cases hcomes with
    | here hmem hkey => exact ⟨_, hmem, hkey, .inl ⟨found, rfl, _, hinner, .inl ⟨inner, rfl, hexposes⟩⟩⟩
    | inDict hmem hkey h => exact ⟨_, hmem, hkey, .inr ⟨_, rfl, found, h, inner, hinner, hexposes⟩⟩
    | inList hmem hkey hdict h =>
      exact ⟨_, hmem, hkey, .inl ⟨_, rfl, _, hdict, .inr ⟨_, rfl, found, h, inner, hinner, hexposes⟩⟩⟩
  · rintro ⟨⟨key, v⟩, hmem, hkey, ⟨list, rfl, w, hw, ⟨inner, rfl, hexposes⟩ | ⟨dict, rfl, hshows⟩⟩ | ⟨dict, rfl, hshows⟩⟩
    · exact ⟨list, .here hmem hkey, inner, hw, hexposes⟩
    · obtain ⟨found, hcomes, hfound⟩ := hshows
      exact ⟨found, .inList hmem hkey hw hcomes, hfound⟩
    · obtain ⟨found, hcomes, hfound⟩ := hshows
      exact ⟨found, .inDict hmem hkey hcomes, hfound⟩

/-- What a redacted value shows is in a list that the redaction has passed over. -/
theorem exposes_iff_showsNested (items : List (PyStr × PyValue)) :
    Exposes lower (.dict (redactMapping lower items)) ↔ ShowsNested lower items := by
  -- The recursion goes from a dictionary to the dictionaries under its keys and, by way of a list, to
  -- those in the list, so both have to be covered by the induction hypothesis.
  suffices hall : ∀ v : PyValue,
      (∀ items, v = .dict items → (Exposes lower (.dict (redactMapping lower items)) ↔ ShowsNested lower items)) ∧
      ∀ list items, v = .list list → .dict items ∈ list →
        (Exposes lower (.dict (redactMapping lower items)) ↔ ShowsNested lower items) from
    (hall (.dict items)).1 items rfl
  intro v
  induction v using PyValue.tree with
  | scalar v hv =>
    refine ⟨?_, ?_⟩
    · rintro items rfl
      cases hv
    · rintro list items rfl
      cases hv
  | list list ih =>
    refine ⟨nofun, ?_⟩
    rintro _ items ⟨⟩ hmem
    exact (ih _ hmem).1 items rfl
  | dict items ih =>
    refine ⟨?_, nofun⟩
    rintro _ ⟨⟩
    rw [exposes_redactMapping, showsNested_iff]
    refine exists_congr fun item => and_congr_right fun hitem => and_congr_right fun _ => ?_
    obtain ⟨hdict, hlist⟩ := ih item hitem
    rw [exposes_redactValue]
    refine or_congr (exists_congr fun list => and_congr_right fun hvalue => exists_congr fun w =>
      and_congr_right fun hw => ?_) (exists_congr fun inner => and_congr_right fun hvalue => hdict inner hvalue)
    rw [exposes_redactItem]
    refine or_congr Iff.rfl (exists_congr fun inner => and_congr_right ?_)
    rintro rfl
    exact hlist list inner hvalue hw

/-- Redaction does what it is for exactly on the mappings in which no list that it comes to has an item
that is a list and shows an entry that has to be redacted. -/
theorem redactionComplete_iff (lower : PyStr → PyStr) (items : List (PyStr × PyValue)) :
    RedactionComplete lower items ↔ ¬ ShowsNested lower items := by
  rw [← exposes_iff_showsNested]
  refine ⟨fun h => h.hidden, fun hhidden => ⟨hhidden, ?_, ?_⟩⟩
  · exact preserves_redactMapping fun item _ => preserves_redactValue item.2
  · exact redactMapping_idem fun item _ => redactValue_idem item.2

/-- An event with a token in a dictionary in a list in a list. -/
def nestedListEvent : List (PyStr × PyValue) :=
  [(ofString "rows", .list [.list [.dict [(ofString "Authorization", text "token")]]])]

/-- A token in a list inside a list is shown. -/
theorem not_redactionComplete_nestedListEvent : ¬ RedactionComplete asciiLower nestedListEvent := by
  intro hcomplete
  refine hcomplete.hidden ((exposes_iff_showsNested _).mpr ?_)
  refine ⟨_, .here List.mem_cons_self (by decide), _, List.mem_cons_self, ?_⟩
  refine ⟨_, .item List.mem_cons_self (.refl _), _, List.mem_cons_self, by decide, ?_⟩
  intro heq
  cases heq

end Redaction

end PgRelay
