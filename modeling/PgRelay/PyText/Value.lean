import PgRelay.PyText.Str
import Mathlib.Data.List.Sort
import Mathlib.Data.List.Lex

/-!
# Python values

The values a JSON document or a request dictionary is made of. A dictionary with string keys is the list of
its items in insertion order, and a float is the text `repr` gives. Every object that is none of these is
`other`: an instance of some class, which `json.dumps` cannot write, but also a tuple or a dictionary with
other keys, which it can.

Facts about all values are proved with `PyValue.tree`, whose cases are the scalars, the lists and the
dictionaries. A `PyDict` is a dictionary whose keys are known to be distinct. Two values are the same if they
differ in nothing but the order of the items of their dictionaries and in how an equal number is written.
-/

namespace PyText

/-- Why `json.dumps` writes no text: an object that is not serializable or a key it cannot use, an integer with
too many digits or a container that contains itself, or more levels than the interpreter goes down. -/
inductive DumpError
  | typeError (message : String)
  | valueError (message : String)
  | recursionError
  deriving DecidableEq, Repr

/-- An object of a type that JSON does not have, by what `json.dumps` makes of it: what it writes or raises where
it may go down a number of levels, and the size of what it writes if it does. -/
structure Foreign where
  writes : ℕ → Except DumpError PyStr
  size : ℕ
  size_eq : ∀ levels text, writes levels = .ok text → utf8Size text = size

/-- A Python value. -/
inductive PyValue
  | none
  | bool (b : Bool)
  | int (n : Int)
  | float (text : String)
  | str (s : PyStr)
  | list (items : List PyValue)
  | dict (items : List (PyStr × PyValue))
  | other (obj : Foreign)

/-- A string without surrogates as a value. -/
def text (s : String) : PyValue := .str (ofString s)

/-- Neither a list nor a dictionary. -/
def PyValue.isScalar : PyValue → Bool
  | .list _ | .dict _ => false
  | _ => true

/-- Induction over the tree of a value. -/
theorem PyValue.tree {motive : PyValue → Prop} (scalar : ∀ v : PyValue, v.isScalar = true → motive v)
    (list : ∀ items, (∀ v ∈ items, motive v) → motive (.list items))
    (dict : ∀ items, (∀ item ∈ items, motive item.2) → motive (.dict items)) : ∀ v, motive v
  | .none => scalar _ rfl
  | .bool _ => scalar _ rfl
  | .int _ => scalar _ rfl
  | .float _ => scalar _ rfl
  | .str _ => scalar _ rfl
  | .other _ => scalar _ rfl
  | .list items => list items fun v _ => PyValue.tree scalar list dict v
  | .dict items => dict items fun item _ => PyValue.tree scalar list dict item.2
termination_by v => sizeOf v
decreasing_by
  · have hmem := List.sizeOf_lt_of_mem ‹v ∈ items›
    simp only [PyValue.list.sizeOf_spec]
    omega
  · have hmem := List.sizeOf_lt_of_mem ‹item ∈ items›
    have hitem : sizeOf item = 1 + sizeOf item.1 + sizeOf item.2 := rfl
    simp only [PyValue.dict.sizeOf_spec]
    omega

/-- The second value occurs in the first one, at any depth. -/
inductive PyValue.Contains : PyValue → PyValue → Prop
  | refl (v : PyValue) : Contains v v
  | item {items : List PyValue} {v w : PyValue} (hv : v ∈ items) (h : Contains v w) : Contains (.list items) w
  | value {items : List (PyStr × PyValue)} {item : PyStr × PyValue} {w : PyValue} (hitem : item ∈ items)
      (h : Contains item.2 w) : Contains (.dict items) w

/-- Some dictionary in the value, at any depth, has an item with the property. -/
def PyValue.HasItem (P : PyStr × PyValue → Prop) (v : PyValue) : Prop :=
  ∃ items, v.Contains (.dict items) ∧ ∃ item ∈ items, P item

variable {P : PyStr × PyValue → Prop}

/-- A scalar has no items. -/
theorem hasItem_scalar {v : PyValue} (hv : v.isScalar = true) : ¬ v.HasItem P := by
  rintro ⟨items, hcontains, -⟩
  cases hcontains <;> cases hv

/-- A list has the items of its elements. -/
theorem hasItem_list {items : List PyValue} : (PyValue.list items).HasItem P ↔ ∃ v ∈ items, v.HasItem P := by
  constructor
  · rintro ⟨found, hcontains, hitem⟩
    cases hcontains with
    | item hv h => exact ⟨_, hv, found, h, hitem⟩
  · rintro ⟨v, hv, found, h, hitem⟩
    exact ⟨found, .item hv h, hitem⟩

/-- A dictionary has its own items and those of its values. -/
theorem hasItem_dict {items : List (PyStr × PyValue)} :
    (PyValue.dict items).HasItem P ↔ ∃ item ∈ items, P item ∨ item.2.HasItem P := by
  constructor
  · rintro ⟨found, hcontains, item, hitem, hP⟩
    cases hcontains with
    | refl => exact ⟨item, hitem, .inl hP⟩
    | value hmem h => exact ⟨_, hmem, .inr ⟨found, h, item, hitem, hP⟩⟩
  · rintro ⟨item, hitem, hP | ⟨found, h, hfound⟩⟩
    · exact ⟨items, .refl _, item, hitem, hP⟩
    · exact ⟨found, .value hitem h, hfound⟩

/-! ## Dictionaries -/

/-- A dictionary with string keys. -/
structure PyDict where
  items : List (PyStr × PyValue)
  nodup : (items.map Prod.fst).Nodup

/-- The dictionary as a value. -/
def PyDict.value (d : PyDict) : PyValue := .dict d.items

/-- `{}`. -/
def PyDict.empty : PyDict := ⟨[], List.nodup_nil⟩

/-- The first value under a key. -/
def lookup (items : List (PyStr × PyValue)) (key : String) : Option PyValue :=
  (items.find? fun item => item.1 = ofString key).map Prod.snd

/-- `d.get(key)`, where a missing key is told apart from a value `None`. -/
def PyDict.get (d : PyDict) (key : String) : Option PyValue := lookup d.items key

/-- An object of a type that JSON does not have. -/
def PyValue.isOther : PyValue → Bool
  | .other _ => true
  | _ => false

/-- The value is `None`. -/
def PyValue.isNone : PyValue → Bool
  | .none => true
  | _ => false

/-- The string, if the value is one. -/
def PyValue.asStr : PyValue → Option PyStr
  | .str s => some s
  | _ => Option.none

/-- The dictionary, if the value is one; the keys of a dictionary are always distinct. -/
def PyValue.asDict : PyValue → Option PyDict
  | .dict items => if h : (items.map Prod.fst).Nodup then some ⟨items, h⟩ else Option.none
  | _ => Option.none

/-- A dictionary is read as itself. -/
@[simp] theorem PyDict.asDict_value (d : PyDict) : d.value.asDict = some d := by
  simp [PyDict.value, PyValue.asDict, d.nodup]

/-- Only a string is read as a string. -/
theorem asStr_eq_some {v : PyValue} {s : PyStr} : v.asStr = some s ↔ v = .str s := by
  cases v <;> simp [PyValue.asStr]

/-- Only a dictionary is read as a dictionary. -/
theorem asDict_eq_some {v : PyValue} {d : PyDict} : v.asDict = some d ↔ v = d.value := by
  constructor
  · intro h
    unfold PyValue.asDict at h
    split at h
    · split_ifs at h
      obtain rfl := Option.some.inj h
      rfl
    · cases h
  · rintro rfl
    exact d.asDict_value

/-- Nothing is found in the empty dictionary. -/
@[simp] theorem lookup_nil (key : String) : lookup [] key = none := rfl

/-- The first item is found first. -/
theorem lookup_cons (k : PyStr) (v : PyValue) (items : List (PyStr × PyValue)) (key : String) :
    lookup ((k, v) :: items) key = if k = ofString key then some v else lookup items key := by
  by_cases hkey : k = ofString key <;> simp [lookup, hkey]

/-- What is not found in the first items is looked up in the others. -/
theorem lookup_append (items items' : List (PyStr × PyValue)) (key : String) :
    lookup (items ++ items') key = (lookup items key <|> lookup items' key) := by
  cases h : items.find? fun item => item.1 = ofString key <;> simp [lookup, h]

/-- A key with one value looks up that value. -/
theorem lookup_eq_some {items : List (PyStr × PyValue)} (hnodup : (items.map Prod.fst).Nodup) {key : String}
    {v : PyValue} : lookup items key = some v ↔ (ofString key, v) ∈ items := by
  induction items with
  | nil => simp [lookup]
  | cons item items ih =>
    obtain ⟨hfresh, hrest⟩ := List.nodup_cons.mp hnodup
    by_cases hkey : item.1 = ofString key
    · have hitem : (ofString key, v) ∈ items → False := fun hmem =>
        hfresh (List.mem_map.mpr ⟨_, hmem, hkey.symm⟩)
      rw [lookup_cons, if_pos hkey, List.mem_cons, or_iff_left hitem, Option.some.injEq, Prod.ext_iff]
      exact ⟨fun h => ⟨hkey.symm, h.symm⟩, fun h => h.2.symm⟩
    · rw [lookup_cons, if_neg hkey, ih hrest, List.mem_cons, or_iff_right fun h => hkey (congrArg Prod.fst h).symm]

/-! ## Equality of JSON values -/

/-- The number that a float text stands for, as the value by which equal numbers are recognized. -/
structure FloatForms where
  form : String → PyValue
  number : ∀ repr, (∃ n, form repr = .int n) ∨ ∃ repr', form repr = .float repr'

mutual

/-- The value with the items of all its dictionaries in the order of their keys. -/
def PyValue.canonical (forms : FloatForms) : PyValue → PyValue
  | .none => .none
  | .bool b => .bool b
  | .int n => .int n
  | .float repr => forms.form repr
  | .str s => .str s
  | .list items => .list (canonicalItems forms items)
  | .dict items => .dict ((canonicalEntries forms items).insertionSort fun a b => a.1 ≤ b.1)
  | .other obj => .other obj

/-- The canonical forms of the items of a list. -/
def canonicalItems (forms : FloatForms) : List PyValue → List PyValue
  | [] => []
  | v :: items => v.canonical forms :: canonicalItems forms items

/-- The canonical forms of the values of a dictionary. -/
def canonicalEntries (forms : FloatForms) : List (PyStr × PyValue) → List (PyStr × PyValue)
  | [] => []
  | (key, v) :: items => (key, v.canonical forms) :: canonicalEntries forms items

end

/-- The values are equal JSON values. -/
def PyValue.Same (forms : FloatForms) (v w : PyValue) : Prop := v.canonical forms = w.canonical forms

variable {forms : FloatForms}

/-- Each item of a dictionary keeps its key and its place there. -/
theorem canonicalEntries_eq_map (items : List (PyStr × PyValue)) :
    canonicalEntries forms items = items.map fun item => (item.1, item.2.canonical forms) := by
  induction items with
  | nil => rfl
  | cons item items ih => rw [canonicalEntries, ih, List.map_cons]

/-- Only a string is the same as a string. -/
theorem canonical_eq_str {v : PyValue} {s : PyStr} : v.canonical forms = .str s ↔ v = .str s := by
  cases v <;> simp [PyValue.canonical]
  case float repr => rcases forms.number repr with ⟨n, h⟩ | ⟨repr', h⟩ <;> simp [h]

/-- Only a dictionary is the same as a dictionary, and their items pair. -/
theorem PyValue.Same.dict {items : List (PyStr × PyValue)} {v : PyValue} (h : PyValue.Same forms (.dict items) v) :
    ∃ items', v = .dict items' ∧ (canonicalEntries forms items).Perm (canonicalEntries forms items') := by
  unfold PyValue.Same at h
  cases v <;> simp only [PyValue.canonical, reduceCtorEq, PyValue.dict.injEq] at h
  case float repr =>
    rcases forms.number repr with ⟨n, hn⟩ | ⟨repr', hn⟩ <;> simp [hn] at h
  case dict items' =>
    refine ⟨items', rfl, ?_⟩
    have hsorted := List.perm_insertionSort (fun a b : PyStr × PyValue => a.1 ≤ b.1) (canonicalEntries forms items)
    rw [h] at hsorted
    exact hsorted.symm.trans (List.perm_insertionSort _ _)

/-- The canonical forms are found under the same keys. -/
theorem lookup_canonicalEntries (items : List (PyStr × PyValue)) (key : String) :
    lookup (canonicalEntries forms items) key = (lookup items key).map (PyValue.canonical forms) := by
  simp only [canonicalEntries_eq_map, lookup, List.find?_map, Option.map_map]
  rfl

/-- The canonical form of a dictionary has the same keys. -/
theorem keys_canonicalEntries (items : List (PyStr × PyValue)) :
    (canonicalEntries forms items).map Prod.fst = items.map Prod.fst := by
  simp [canonicalEntries_eq_map, Function.comp_def]

/-- Looking up a key in equal dictionaries gives equal values. -/
theorem lookup_perm {items items' : List (PyStr × PyValue)} (hnodup : (items.map Prod.fst).Nodup)
    (h : items.Perm items') (key : String) : lookup items key = lookup items' key := by
  have hnodup' : (items'.map Prod.fst).Nodup := (h.map Prod.fst).nodup_iff.mp hnodup
  refine Option.ext fun v => ?_
  rw [lookup_eq_some hnodup, lookup_eq_some hnodup', h.mem_iff]

/-- A value that is the same as a dictionary is a dictionary with the same keys and values. -/
theorem PyDict.same_value {d : PyDict} {v : PyValue} (h : PyValue.Same forms d.value v) :
    ∃ d' : PyDict, v = d'.value ∧ (canonicalEntries forms d.items).Perm (canonicalEntries forms d'.items) ∧
      ∀ key, (d'.get key).map (PyValue.canonical forms) = (d.get key).map (PyValue.canonical forms) := by
  obtain ⟨items', rfl, hperm⟩ := h.dict
  have hnodup : ((canonicalEntries forms d.items).map Prod.fst).Nodup := by
    rw [keys_canonicalEntries]
    exact d.nodup
  have hnodup' : (items'.map Prod.fst).Nodup := by
    have hkeys := (hperm.map Prod.fst).nodup_iff.mp hnodup
    rwa [keys_canonicalEntries] at hkeys
  refine ⟨⟨items', hnodup'⟩, rfl, hperm, fun key => ?_⟩
  rw [PyDict.get, PyDict.get, ← lookup_canonicalEntries, ← lookup_canonicalEntries, lookup_perm hnodup hperm]

end PyText
