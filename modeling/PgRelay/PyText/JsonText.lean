import PgRelay.PyText.Str
import PgRelay.PyText.Value
import Mathlib.Data.List.Sort
import Mathlib.Algebra.Order.BigOperators.Group.List

/-!
# JSON texts

`json.dumps(value, ensure_ascii=False, sort_keys=True, separators=(",", ":"))` and the number of bytes of
its UTF-8 encoding. Writing fails for an object that JSON does not know, for an integer of more digits than
the interpreter converts, and for lists and dictionaries inside each other on more levels than it goes down;
the encoding fails if a surrogate stands in a string, which is written as it is.

How many levels there are depends on the interpreter and on how deep in its stack it is at the call, so it is
an argument. A list or a dictionary takes one of them, also an empty one.

Where nothing fails, the size of a text is a sum over the tree of the value. It does not depend on the order
of the items of a dictionary.
-/

namespace PyText

/-! ## Writing -/

/-- `sys.int_info.default_max_str_digits`. -/
def maxStrDigits : ℕ := 4300

/-- `int.__repr__`. -/
def intText (n : Int) : Except DumpError PyStr :=
  if n.natAbs < 10 ^ maxStrDigits then .ok (ofString (toString n))
  else .error (.valueError ("Exceeds the limit (4300 digits) for integer string conversion; " ++
    "use sys.set_int_max_str_digits() to increase the limit"))

/-- What the encoder writes for a float. -/
def floatText (repr : String) : PyStr :=
  ofString (if repr = "nan" then "NaN" else if repr = "inf" then "Infinity" else if repr = "-inf" then "-Infinity"
    else repr)

/-- A hexadecimal digit. -/
def hexDigit (n : ℕ) : CodePoint := codePoint (if n < 10 then 48 + n else 87 + n)

/-- `ESCAPE_DCT` with `ensure_ascii=False`. -/
def escapeChar (c : CodePoint) : PyStr :=
  if c.val = 34 then ofString "\\\""
  else if c.val = 92 then ofString "\\\\"
  else if c.val = 8 then ofString "\\b"
  else if c.val = 9 then ofString "\\t"
  else if c.val = 10 then ofString "\\n"
  else if c.val = 12 then ofString "\\f"
  else if c.val = 13 then ofString "\\r"
  else if c.val < 32 then ofString "\\u00" ++ [hexDigit (c.val / 16), hexDigit (c.val % 16)]
  else [c]

/-- A string in quotes. -/
def quoted (s : PyStr) : PyStr := ofString "\"" ++ (s.flatMap escapeChar ++ ofString "\"")

/-- `",".join(parts)`. -/
def joinComma : List PyStr → PyStr
  | [] => []
  | [part] => part
  | part :: parts => part ++ (ofString "," ++ joinComma parts)

/-- The text of one item of a dictionary. -/
def entryText (entry : PyStr × Except DumpError PyStr) : Except DumpError PyStr :=
  entry.2.map fun text => quoted entry.1 ++ (ofString ":" ++ text)

/-- `sorted(dct.items())`. -/
def sortEntries {α : Type} (entries : List (PyStr × α)) : List (PyStr × α) :=
  entries.insertionSort fun a b => a.1 ≤ b.1

/-- The first failure, or all texts. -/
def allTexts : List (Except DumpError PyStr) → Except DumpError (List PyStr)
  | [] => .ok []
  | .error e :: _ => .error e
  | .ok text :: rest => (allTexts rest).map (text :: ·)

/-- `Py_EnterRecursiveCall`: go down one level, if there is one left. -/
def enterLevel (levels : ℕ) (parts : ℕ → List (Except DumpError PyStr)) : Except DumpError (List PyStr) :=
  match levels with
  | 0 => .error .recursionError
  | levels + 1 => allTexts (parts levels)

mutual

/-- `json.dumps(value, ensure_ascii=False, sort_keys=True, separators=(",", ":"))`. -/
def dumps (levels : ℕ) (value : PyValue) : Except DumpError PyStr :=
  match value with
  | .none => .ok (ofString "null")
  | .bool b => .ok (ofString (if b then "true" else "false"))
  | .int n => intText n
  | .float repr => .ok (floatText repr)
  | .str s => .ok (quoted s)
  | .list items => (enterLevel levels fun levels => dumpItems levels items).map fun texts =>
      ofString "[" ++ (joinComma texts ++ ofString "]")
  | .dict items => (enterLevel levels fun levels => (sortEntries (dumpEntries levels items)).map entryText).map
      fun texts => ofString "\x7b" ++ (joinComma texts ++ ofString "\x7d")
  | .other obj => obj.writes levels
termination_by structural value

/-- The items of a list. -/
def dumpItems (levels : ℕ) (items : List PyValue) : List (Except DumpError PyStr) :=
  match items with
  | [] => []
  | v :: items => dumps levels v :: dumpItems levels items
termination_by structural items

/-- The items of a dictionary. -/
def dumpEntries (levels : ℕ) (items : List (PyStr × PyValue)) : List (PyStr × Except DumpError PyStr) :=
  match items with
  | [] => []
  | (key, v) :: items => (key, dumps levels v) :: dumpEntries levels items
termination_by structural items

end

/-- `len(json.dumps(value, …).encode("utf-8"))`. -/
def jsonSize (levels : ℕ) (v : PyValue) : Except (Option DumpError) ℕ :=
  match dumps levels v with
  | .error e => .error (some e)
  | .ok text =>
    match encodeUtf8 text with
    | none => .error none
    | some bytes => .ok bytes.size

/-! ## Values that have a text -/

/-- The value has a text that can be encoded: it has no more levels than there are, JSON can write every object
in it, its integers have few enough digits, and no surrogate stands in a string. -/
inductive Dumpable : ℕ → PyValue → Prop
  | none {levels : ℕ} : Dumpable levels .none
  | bool {levels : ℕ} (b : Bool) : Dumpable levels (.bool b)
  | int {levels : ℕ} {n : Int} (hn : n.natAbs < 10 ^ maxStrDigits) : Dumpable levels (.int n)
  | float {levels : ℕ} (repr : String) : Dumpable levels (.float repr)
  | str {levels : ℕ} {s : PyStr} (hs : Encodable s) : Dumpable levels (.str s)
  | list {levels : ℕ} {items : List PyValue} (hitems : ∀ v ∈ items, Dumpable levels v) :
      Dumpable (levels + 1) (.list items)
  | dict {levels : ℕ} {items : List (PyStr × PyValue)} (hkeys : ∀ item ∈ items, Encodable item.1)
      (hvalues : ∀ item ∈ items, Dumpable levels item.2) : Dumpable (levels + 1) (.dict items)
  | other {levels : ℕ} {obj : Foreign} {text : PyStr} (hwrites : obj.writes levels = .ok text)
      (htext : Encodable text) : Dumpable levels (.other obj)

/-- The size of parts that are joined with commas. -/
def joinSize (sizes : List ℕ) : ℕ := sizes.sum + (sizes.length - 1)

mutual

/-- The bytes of the text of a value. -/
def textSize : PyValue → ℕ
  | .none => 4
  | .bool b => if b then 4 else 5
  | .int n => utf8Size (ofString (toString n))
  | .float repr => utf8Size (floatText repr)
  | .str s => utf8Size (quoted s)
  | .list items => joinSize (itemSizes items) + 2
  | .dict items => joinSize (entrySizes items) + 2
  | .other obj => obj.size

/-- The bytes of the items of a list. -/
def itemSizes : List PyValue → List ℕ
  | [] => []
  | v :: items => textSize v :: itemSizes items

/-- The bytes of the items of a dictionary. -/
def entrySizes : List (PyStr × PyValue) → List ℕ
  | [] => []
  | (key, v) :: items => (utf8Size (quoted key) + textSize v + 1) :: entrySizes items

end

/-- The texts of the items of a list. -/
theorem dumpItems_eq_map (levels : ℕ) (items : List PyValue) : dumpItems levels items = items.map (dumps levels) := by
  induction items with
  | nil => rfl
  | cons v items ih => rw [dumpItems, ih, List.map_cons]

/-- The texts of the items of a dictionary. -/
theorem dumpEntries_eq_map (levels : ℕ) (items : List (PyStr × PyValue)) :
    dumpEntries levels items = items.map fun item => (item.1, dumps levels item.2) := by
  induction items with
  | nil => rfl
  | cons item items ih => rw [dumpEntries, ih, List.map_cons]

/-- The sizes of the items of a list. -/
theorem itemSizes_eq_map (items : List PyValue) : itemSizes items = items.map textSize := by
  induction items with
  | nil => rfl
  | cons v items ih => rw [itemSizes, ih, List.map_cons]

/-- The bytes of one item of a dictionary. -/
def entrySize (item : PyStr × PyValue) : ℕ := utf8Size (quoted item.1) + textSize item.2 + 1

/-- The sizes of the items of a dictionary. -/
theorem entrySizes_eq_map (items : List (PyStr × PyValue)) : entrySizes items = items.map entrySize := by
  induction items with
  | nil => rfl
  | cons item items ih => rw [entrySizes, ih, List.map_cons, entrySize]

variable {levels : ℕ}

/-- The size of a joined text does not depend on the order of its parts. -/
theorem joinSize_perm {sizes sizes' : List ℕ} (h : sizes.Perm sizes') : joinSize sizes = joinSize sizes' := by
  rw [joinSize, joinSize, h.sum_eq, h.length_eq]

/-- The size of a joined text. -/
theorem utf8Size_joinComma (parts : List PyStr) : utf8Size (joinComma parts) = joinSize (parts.map utf8Size) := by
  induction parts with
  | nil => rfl
  | cons part parts ih =>
    cases parts with
    | nil => simp [joinComma, joinSize]
    | cons next parts =>
      have hcomma : utf8Size (ofString ",") = 1 := by decide
      simp only [joinComma, utf8Size_append, ih, hcomma, joinSize, List.map_cons, List.sum_cons, List.length_cons]
      omega

/-- A joined text can be encoded if its parts can. -/
theorem encodable_joinComma {parts : List PyStr} :
    Encodable (joinComma parts) ↔ ∀ part ∈ parts, Encodable part := by
  induction parts with
  | nil => simp [joinComma, Encodable]
  | cons part parts ih =>
    cases parts with
    | nil => simp [joinComma]
    | cons next parts =>
      change Encodable (part ++ (ofString "," ++ joinComma (next :: parts))) ↔ _
      rw [encodable_append, encodable_append, ih, List.forall_mem_cons]
      simp [encodable_ofString]

/-- An escape keeps a surrogate and brings none. -/
theorem encodable_escapeChar (c : CodePoint) : Encodable (escapeChar c) ↔ ¬ IsSurrogate c := by
  by_cases hplain : c.val = 34 ∨ c.val = 92 ∨ c.val < 32
  · have hc : ¬ IsSurrogate c := by
      simp only [IsSurrogate]
      omega
    refine iff_of_true ?_ hc
    have hhex : ∀ n : Fin 16, ¬ IsSurrogate (hexDigit n) := by decide
    have hdigits : Encodable [hexDigit (c.val / 16), hexDigit (c.val % 16)] := by
      simp only [Encodable, List.forall_mem_cons, List.not_mem_nil, IsEmpty.forall_iff, implies_true, and_true]
      exact ⟨hhex ⟨c.val / 16, by omega⟩, hhex ⟨c.val % 16, by omega⟩⟩
    unfold escapeChar
    split_ifs <;> first
      | exact encodable_ofString _
      | exact encodable_append.mpr ⟨encodable_ofString _, hdigits⟩
      | omega
  · have hescape : escapeChar c = [c] := by
      unfold escapeChar
      split_ifs <;> first | omega | rfl
    simp [hescape, Encodable]

/-- A quoted string can be encoded if the string can. -/
theorem encodable_quoted {s : PyStr} : Encodable (quoted s) ↔ Encodable s := by
  have hflat : Encodable (s.flatMap escapeChar) ↔ Encodable s := by
    induction s with
    | nil => rfl
    | cons c s ih =>
      rw [List.flatMap_cons, encodable_append, ih, encodable_escapeChar]
      simp [Encodable]
  simp only [quoted, encodable_append, encodable_ofString, hflat, true_and, and_true]

/-- A mapped result is there if the result is. -/
theorem except_map_eq_ok {ε α β : Type} {f : α → β} {x : Except ε α} {b : β} :
    x.map f = .ok b ↔ ∃ a, x = .ok a ∧ f a = b := by
  cases x <;> simp [Except.map]

/-- Sorting keeps the items. -/
theorem perm_sortEntries {α : Type} (entries : List (PyStr × α)) : (sortEntries entries).Perm entries :=
  List.perm_insertionSort _ _

/-- A list takes a level. -/
theorem not_dumpable_list_zero {items : List PyValue} : ¬ Dumpable 0 (.list items) := nofun

/-- So does a dictionary. -/
theorem not_dumpable_dict_zero {items : List (PyStr × PyValue)} : ¬ Dumpable 0 (.dict items) := nofun

/-- A list has a text if its items have one, one level below. -/
theorem dumpable_list {items : List PyValue} :
    Dumpable (levels + 1) (.list items) ↔ ∀ v ∈ items, Dumpable levels v :=
  ⟨fun h => by cases h with | list hitems => exact hitems, .list⟩

/-- So has a dictionary, if its keys can be encoded. -/
theorem dumpable_dict {items : List (PyStr × PyValue)} :
    Dumpable (levels + 1) (.dict items) ↔ ∀ item ∈ items, Encodable item.1 ∧ Dumpable levels item.2 :=
  ⟨fun h => by cases h with | dict hkeys hvalues => exact fun item hitem => ⟨hkeys item hitem, hvalues item hitem⟩,
    fun h => .dict (fun item hitem => (h item hitem).1) fun item hitem => (h item hitem).2⟩

/-- An object of another type has a text if it is written as one that can be encoded. -/
theorem dumpable_other {obj : Foreign} :
    Dumpable levels (.other obj) ↔ ∃ text, obj.writes levels = .ok text ∧ Encodable text :=
  ⟨fun h => by cases h with | other hwrites htext => exact ⟨_, hwrites, htext⟩,
    fun ⟨_, hwrites, htext⟩ => .other hwrites htext⟩

/-- What the writing of a value comes to: a text that can be encoded exactly for a value that has one, and of
the size that the tree says. -/
structure DumpSpec (levels : ℕ) (v : PyValue) (result : Except DumpError PyStr) : Prop where
  dumpable : (∃ text, result = .ok text ∧ Encodable text) ↔ Dumpable levels v
  size : ∀ text, result = .ok text → utf8Size text = textSize v

/-- A value that is written. -/
theorem DumpSpec.of_text {v : PyValue} {text : PyStr} (hdumpable : Encodable text ↔ Dumpable levels v)
    (hsize : utf8Size text = textSize v) : DumpSpec levels v (.ok text) := by
  refine ⟨?_, fun text' h => ?_⟩
  · simpa using hdumpable
  · obtain rfl : text = text' := by simpa using h
    exact hsize

/-- A value that is not written. -/
theorem DumpSpec.of_error {v : PyValue} {e : DumpError} (h : ¬ Dumpable levels v) : DumpSpec levels v (.error e) :=
  ⟨by simpa using h, by simp⟩

/-- The parts of a list or a dictionary, with a size and a property of values for each. -/
theorem allTexts_spec {α : Type} {elements : List α} {result : α → Except DumpError PyStr} {P : α → Prop} {size : α → ℕ}
    (h : ∀ a ∈ elements, ((∃ text, result a = .ok text ∧ Encodable text) ↔ P a) ∧
      ∀ text, result a = .ok text → utf8Size text = size a) :
    ((∃ texts, allTexts (elements.map result) = .ok texts ∧ ∀ text ∈ texts, Encodable text) ↔ ∀ a ∈ elements, P a) ∧
      ∀ texts, allTexts (elements.map result) = .ok texts → texts.map utf8Size = elements.map size := by
  induction elements with
  | nil => simp [allTexts]
  | cons a elements ih =>
    obtain ⟨hhead, hrest⟩ := List.forall_mem_cons.mp h
    obtain ⟨ihdumpable, ihsize⟩ := ih hrest
    rw [List.forall_mem_cons, ← hhead.1, ← ihdumpable]
    cases hresult : result a with
    | error e => simp [allTexts, hresult]
    | ok text =>
      cases htexts : allTexts (elements.map result) with
      | error e => simp [allTexts, hresult, htexts, Except.map]
      | ok texts =>
        have hsize := hhead.2 text hresult
        have hsizes := ihsize texts htexts
        simp [allTexts, hresult, htexts, Except.map, hsize, hsizes]

/-- Parts that are joined with commas, in brackets. -/
theorem DumpSpec.of_parts {v : PyValue} {result : Except DumpError (List PyStr)} (l r : String)
    (hl : utf8Size (ofString l) = 1) (hr : utf8Size (ofString r) = 1)
    (hdumpable : (∃ texts, result = .ok texts ∧ ∀ text ∈ texts, Encodable text) ↔ Dumpable levels v)
    (hsize : ∀ texts, result = .ok texts → joinSize (texts.map utf8Size) + 2 = textSize v) :
    DumpSpec levels v (result.map fun texts => ofString l ++ (joinComma texts ++ ofString r)) := by
  cases htexts : result with
  | error e =>
    refine .of_error fun h => ?_
    obtain ⟨texts, hok, -⟩ := hdumpable.mpr h
    cases htexts.symm.trans hok
  | ok texts =>
    refine .of_text ?_ ?_
    · rw [← hdumpable]
      simp [encodable_append, encodable_ofString, encodable_joinComma, htexts]
    · rw [← hsize texts htexts, utf8Size_append, utf8Size_append, utf8Size_joinComma, hl, hr]
      omega

/-- Sorting by the keys takes the values along. -/
theorem sortEntries_map {α β : Type} (f : α → β) (entries : List (PyStr × α)) :
    sortEntries (entries.map fun entry => (entry.1, f entry.2)) =
      (sortEntries entries).map fun entry => (entry.1, f entry.2) := by
  refine (List.map_insertionSort _ _ (fun entry : PyStr × α => (entry.1, f entry.2)) entries ?_).symm
  exact fun _ _ _ _ => Iff.rfl

/-- The text of an item, from that of its value. -/
theorem DumpSpec.entryText {v : PyValue} {result : Except DumpError PyStr} (h : DumpSpec levels v result)
    (key : PyStr) :
    ((∃ text, PyText.entryText (key, result) = .ok text ∧ Encodable text) ↔ Encodable key ∧ Dumpable levels v) ∧
      ∀ text, PyText.entryText (key, result) = .ok text → utf8Size text = entrySize (key, v) := by
  have hcolon : utf8Size (ofString ":") = 1 := by decide
  constructor
  · rw [← h.dumpable]
    cases result <;> simp [PyText.entryText, Except.map, encodable_append, encodable_ofString, encodable_quoted]
  · intro text htext
    obtain ⟨value, hvalue, rfl⟩ := except_map_eq_ok.mp htext
    change utf8Size (quoted key ++ (ofString ":" ++ value)) = utf8Size (quoted key) + textSize v + 1
    rw [utf8Size_append, utf8Size_append, h.size value hvalue, hcolon]
    omega

/-- `dumps` writes what has a text and fails for the rest. -/
theorem dumps_spec (levels : ℕ) (v : PyValue) : DumpSpec levels v (dumps levels v) := by
  induction v using PyValue.tree generalizing levels with
  | scalar v hv =>
    cases v with
    | none => exact .of_text (iff_of_true (encodable_ofString _) .none) (by decide)
    | bool b =>
      refine .of_text (iff_of_true (encodable_ofString _) (.bool b)) ?_
      cases b <;> decide
    | int n =>
      rw [dumps, intText]
      split_ifs with hn
      · exact .of_text (iff_of_true (encodable_ofString _) (.int hn)) rfl
      · exact .of_error fun h => by cases h with | int hn' => exact hn hn'
    | float repr => exact .of_text (iff_of_true (encodable_ofString _) (.float repr)) rfl
    | str s =>
      refine .of_text (encodable_quoted.trans ⟨.str, fun h => ?_⟩) rfl
      cases h with
      | str hs => exact hs
    | list items => cases hv
    | dict items => cases hv
    | other obj => exact ⟨dumpable_other.symm, obj.size_eq levels⟩
  | list items ih =>
    rw [dumps]
    cases levels with
    | zero => exact .of_error not_dumpable_list_zero
    | succ levels =>
      have hitem (v : PyValue) (hv : v ∈ items) :
          ((∃ text, dumps levels v = .ok text ∧ Encodable text) ↔ Dumpable levels v) ∧
            ∀ text, dumps levels v = .ok text → utf8Size text = textSize v :=
        ⟨(ih v hv levels).dumpable, (ih v hv levels).size⟩
      obtain ⟨hdumpable, hsize⟩ := allTexts_spec hitem
      simp only [enterLevel, dumpItems_eq_map]
      refine .of_parts _ _ (by decide) (by decide) (hdumpable.trans dumpable_list.symm) fun texts htexts => ?_
      rw [hsize texts htexts, textSize, itemSizes_eq_map]
  | dict items ih =>
    rw [dumps]
    cases levels with
    | zero => exact .of_error not_dumpable_dict_zero
    | succ levels =>
      have hentry (item : PyStr × PyValue) (hitem : item ∈ sortEntries items) :=
        (ih item ((perm_sortEntries items).mem_iff.mp hitem) levels).entryText item.1
      obtain ⟨hdumpable, hsize⟩ := allTexts_spec hentry
      simp only [enterLevel, dumpEntries_eq_map, sortEntries_map, List.map_map]
      refine .of_parts _ _ (by decide) (by decide) (hdumpable.trans ?_) fun texts htexts => ?_
      · simp only [dumpable_dict, (perm_sortEntries items).mem_iff]
      · rw [hsize texts htexts, textSize, entrySizes_eq_map, joinSize_perm ((perm_sortEntries items).map _)]

/-- The size of a value that has a text is the one that its tree says; any other value makes the call fail. -/
theorem jsonSize_eq_ok {v : PyValue} {n : ℕ} : jsonSize levels v = .ok n ↔ Dumpable levels v ∧ textSize v = n := by
  obtain ⟨hdumpable, hsize⟩ := dumps_spec levels v
  rw [← hdumpable, jsonSize]
  cases hdump : dumps levels v with
  | error e => simp
  | ok text =>
    cases hbytes : encodeUtf8 text with
    | none =>
      have htext : ¬ Encodable text := fun htext => by simp [encodeUtf8, htext] at hbytes
      simp [hbytes, htext]
    | some bytes =>
      have htext : Encodable text := by
        by_contra htext
        simp [encodeUtf8, htext] at hbytes
      simp [hbytes, htext, size_of_encodeUtf8 hbytes, hsize text hdump]

/-- A value that is written as one that has a text has a text of the same size. -/
theorem dumpable_of_dumps_eq {v w : PyValue} (h : dumps levels w = dumps levels v) (hv : Dumpable levels v) :
    Dumpable levels w ∧ textSize w = textSize v := by
  obtain ⟨text, htext, hencodable⟩ := (dumps_spec levels v).dumpable.mpr hv
  have hw : dumps levels w = .ok text := h.trans htext
  refine ⟨(dumps_spec levels w).dumpable.mp ⟨text, hw, hencodable⟩, ?_⟩
  rw [← (dumps_spec levels w).size text hw, (dumps_spec levels v).size text htext]

/-! ## Objects of other types -/

/-- The object is written as the value, wherever it is written. -/
def Foreign.WrittenAs (obj : Foreign) (v : PyValue) : Prop :=
  ∀ levels text, obj.writes levels = .ok text → dumps levels v = .ok text

/-- An object that is written as a value has the text of the value. -/
theorem Foreign.WrittenAs.dumps_eq {obj : Foreign} {v : PyValue} (h : obj.WrittenAs v)
    (hobj : Dumpable levels (.other obj)) : dumps levels v = dumps levels (.other obj) := by
  obtain ⟨text, htext, -⟩ := dumpable_other.mp hobj
  exact (h levels text htext).trans htext.symm

/-- An object that JSON cannot write. -/
def Foreign.unserializable (typeName : String) : Foreign where
  writes _ := .error (.typeError ("Object of type " ++ typeName ++ " is not JSON serializable"))
  size := 0
  size_eq := by simp

/-- A tuple, which is written as a list. -/
def Foreign.tuple (items : List PyValue) : Foreign where
  writes levels := dumps levels (.list items)
  size := textSize (.list items)
  size_eq levels := (dumps_spec levels _).size

/-- A key of a dictionary. -/
inductive PyKey
  | none
  | bool (b : Bool)
  | int (n : Int)
  | float (repr : String)
  | str (s : PyStr)
  | other (typeName : String)

/-- The string that is written for a key. -/
def keyText : PyKey → Except DumpError PyStr
  | .none => .ok (ofString "null")
  | .bool b => .ok (ofString (if b then "true" else "false"))
  | .int n => intText n
  | .float repr => .ok (floatText repr)
  | .str s => .ok s
  | .other typeName => .error (.typeError ("keys must be str, int, float, bool or None, not " ++ typeName))

/-- The text of an item with any key; a key that cannot be used is found before its value is written. -/
def keyedText (levels : ℕ) (item : PyKey × PyValue) : Except DumpError PyStr :=
  (keyText item.1).bind fun key => entryText (key, dumps levels item.2)

/-- The bytes of an item with any key. -/
def keyedSize (item : PyKey × PyValue) : ℕ :=
  match keyText item.1 with
  | .error _ => 0
  | .ok key => entrySize (key, item.2)

/-- An item with any key has a text if its key and its value have, and then of this size. -/
theorem keyedText_spec (levels : ℕ) (item : PyKey × PyValue) :
    ((∃ text, keyedText levels item = .ok text ∧ Encodable text) ↔
      (∃ key, keyText item.1 = .ok key ∧ Encodable key) ∧ Dumpable levels item.2) ∧
    ∀ text, keyedText levels item = .ok text → utf8Size text = keyedSize item := by
  unfold keyedText keyedSize
  cases keyText item.1 with
  | error e => simp [Except.bind]
  | ok key => simpa [Except.bind] using (dumps_spec levels item.2).entryText key

/-- A dictionary with any keys, by its items as `sorted` leaves them. How it compares the keys is left open; where
it cannot, it raises a `TypeError`. -/
def Foreign.keyed (sorted : Except DumpError (List (PyKey × PyValue))) : Foreign where
  writes levels := (enterLevel levels fun levels =>
      match sorted with
      | .error e => [.error e]
      | .ok items => items.map (keyedText levels)).map
    fun texts => ofString "\x7b" ++ (joinComma texts ++ ofString "\x7d")
  size :=
    match sorted with
    | .error _ => 0
    | .ok items => joinSize (items.map keyedSize) + 2
  size_eq levels text h := by
    obtain ⟨texts, htexts, rfl⟩ := except_map_eq_ok.mp h
    cases levels with
    | zero => cases htexts
    | succ levels =>
      cases sorted with
      | error e => cases htexts
      | ok items =>
        have hopen : utf8Size (ofString "\x7b") = 1 := by decide
        have hclose : utf8Size (ofString "\x7d") = 1 := by decide
        have hsizes := (allTexts_spec fun item (_ : item ∈ items) => keyedText_spec levels item).2 texts htexts
        simp only [utf8Size_append, utf8Size_joinComma, hsizes, hopen, hclose]
        omega

/-- A tuple has a text exactly if the list of its items has one. -/
theorem dumpable_tuple {items : List PyValue} :
    Dumpable levels (.other (.tuple items)) ↔ Dumpable levels (.list items) := by
  rw [dumpable_other, ← (dumps_spec levels _).dumpable]
  rfl

/-- A dictionary with any keys has a text exactly if its keys can be compared and written and its values have
texts one level down. -/
theorem dumpable_keyed {sorted : Except DumpError (List (PyKey × PyValue))} :
    Dumpable (levels + 1) (.other (.keyed sorted)) ↔ ∃ items, sorted = .ok items ∧ ∀ item ∈ items,
      (∃ key, keyText item.1 = .ok key ∧ Encodable key) ∧ Dumpable levels item.2 := by
  rw [dumpable_other]
  cases sorted with
  | error e => simp [Foreign.keyed, enterLevel, allTexts, Except.map]
  | ok items =>
    have hparts := (allTexts_spec fun item (_ : item ∈ items) => keyedText_spec levels item).1
    simp only [Except.ok.injEq, exists_eq_left', ← hparts, Foreign.keyed, enterLevel]
    cases allTexts (items.map (keyedText levels)) with
    | error e => simp [Except.map]
    | ok texts => simp [Except.map, encodable_append, encodable_ofString, encodable_joinComma]

end PyText
