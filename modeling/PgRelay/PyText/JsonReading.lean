import PgRelay.PyText.JsonText
import PgRelay.PyText.Url

/-!
# What a JSON text says

A text that `dumps` has written determines the value, up to the order of the items of its dictionaries. No text
of a value is the beginning of the text of another one: behind a value stands the end, a comma or a closing
bracket, none of which a number or a name goes on with, and a string ends at the first quote that is not escaped.

Numbers are told apart by their texts. An integer has digits and a sign only, where the text of a float has a
point, an exponent or a name.
-/

namespace PyText

/-! ## Strings -/

/-- The value of a hexadecimal digit. -/
def hexValue (c : CodePoint) : ℕ := if c.val < 87 then c.val - 48 else c.val - 87

/-- What stands for a character behind a backslash, but for `u`. -/
def unescape (c : CodePoint) : CodePoint :=
  if c.val = 98 then codePoint 8 else if c.val = 116 then codePoint 9 else if c.val = 110 then codePoint 10
  else if c.val = 102 then codePoint 12 else if c.val = 114 then codePoint 13 else c

/-- The first character that a string has in its text, and what stands behind it. -/
def readChar : PyStr → Option (CodePoint × PyStr)
  | [] => none
  | c :: rest =>
    if c.val ≠ 92 then some (c, rest)
    else match rest with
      | [] => none
      | e :: rest =>
        if e.val ≠ 117 then some (unescape e, rest)
        else match rest with
          | _ :: _ :: high :: low :: rest => some (codePoint (16 * hexValue high + hexValue low), rest)
          | _ => none

variable {s s' rest rest' : PyStr}

/-- A hexadecimal digit is read as its value. -/
theorem hexValue_hexDigit {n : ℕ} (h : n < 16) : hexValue (hexDigit n) = n := by
  have hdigit : ∀ n : Fin 16, hexValue (hexDigit n) = n := by decide
  exact hdigit ⟨n, h⟩

/-- The text of a character is read as the character. -/
theorem readChar_escapeChar (c : CodePoint) (rest : PyStr) : readChar (escapeChar c ++ rest) = some (c, rest) := by
  have hcode {n : ℕ} (h : c.val = n) : codePoint n = c := by
    subst h
    exact Fin.ext (codePoint_val c.isLt)
  unfold escapeChar
  split_ifs with h34 h92 h8 h9 h10 h12 h13 h32
  · rw [← hcode h34]
    rfl
  · rw [← hcode h92]
    rfl
  · rw [← hcode h8]
    rfl
  · rw [← hcode h9]
    rfl
  · rw [← hcode h10]
    rfl
  · rw [← hcode h12]
    rfl
  · rw [← hcode h13]
    rfl
  · have hread : readChar (ofString "\\u00" ++ [hexDigit (c.val / 16), hexDigit (c.val % 16)] ++ rest) =
        some (codePoint (16 * hexValue (hexDigit (c.val / 16)) + hexValue (hexDigit (c.val % 16))), rest) := rfl
    rw [hread, hexValue_hexDigit (by omega), hexValue_hexDigit (by omega), hcode (by omega)]
  · exact if_pos h92

/-- The text of a character does not begin with a quote. -/
theorem head_escapeChar (c : CodePoint) : ∃ d t, escapeChar c = d :: t ∧ d.val ≠ 34 := by
  unfold escapeChar
  split_ifs with h34
  · exact ⟨_, _, rfl, by decide⟩
  · exact ⟨_, _, rfl, by decide⟩
  · exact ⟨_, _, rfl, by decide⟩
  · exact ⟨_, _, rfl, by decide⟩
  · exact ⟨_, _, rfl, by decide⟩
  · exact ⟨_, _, rfl, by decide⟩
  · exact ⟨_, _, rfl, by decide⟩
  · exact ⟨_, _, rfl, by decide⟩
  · exact ⟨c, [], rfl, h34⟩

/-- A string and what stands behind it are read from its text. -/
theorem quoted_append_inj (h : quoted s ++ rest = quoted s' ++ rest') : s = s' ∧ rest = rest' := by
  have hbody (s rest : PyStr) :
      quoted s ++ rest = codePoint 34 :: (s.flatMap escapeChar ++ codePoint 34 :: rest) := by
    simp only [quoted, List.append_assoc]
    rfl
  have hquote {t : PyStr} {c : CodePoint} {u : PyStr} : codePoint 34 :: t ≠ escapeChar c ++ u := by
    obtain ⟨d, tail, hd, hne⟩ := head_escapeChar c
    rw [hd]
    intro heq
    exact hne (congrArg Fin.val (List.cons.inj heq).1).symm
  rw [hbody, hbody] at h
  replace h := (List.cons.inj h).2
  induction s generalizing s' with
  | nil =>
    cases s' with
    | nil => exact ⟨rfl, (List.cons.inj h).2⟩
    | cons c s' =>
      rw [List.flatMap_cons, List.append_assoc] at h
      exact absurd h hquote
  | cons c s ih =>
    cases s' with
    | nil =>
      rw [List.flatMap_cons, List.append_assoc] at h
      exact absurd h.symm hquote
    | cons c' s' =>
      rw [List.flatMap_cons, List.flatMap_cons, List.append_assoc, List.append_assoc] at h
      have hread := congrArg readChar h
      rw [readChar_escapeChar, readChar_escapeChar] at hread
      obtain ⟨rfl, htail⟩ := Prod.mk.inj (Option.some.inj hread)
      obtain ⟨rfl, hrest⟩ := ih htail
      exact ⟨rfl, hrest⟩

/-! ## Numbers and names -/

/-- A character of a numeral. -/
def isNumeralChar (c : Char) : Bool := c.isDigit || c = '+' || c = '-' || c = '.' || c = 'e'

/-- A character that only the numeral of a float has. -/
def isPointChar (c : Char) : Bool := c = '.' || c = 'e'

/-- A text that `float.__repr__` gives: not a number, an infinity, or a numeral with a point or an exponent. -/
def IsFloatRepr (repr : String) : Prop :=
  repr = "nan" ∨ repr = "inf" ∨ repr = "-inf" ∨
    repr.toList.all isNumeralChar = true ∧ repr.toList.any isPointChar = true

instance (repr : String) : Decidable (IsFloatRepr repr) := inferInstanceAs (Decidable (_ ∨ _))

/-- The text is one of an integer. -/
def isInteger (t : String) : Bool := t.toList.all fun c => c.isDigit || c = '-'

/-- The integer that a text stands for. -/
def readInt (t : String) : ℤ :=
  if t.toList.head? = some '-' then -(Nat.ofDigitChars 10 t.toList.tail 0) else Nat.ofDigitChars 10 t.toList 0

/-- The value with a text that has no brackets and no quotes. -/
def readWord (t : String) : PyValue :=
  if t = "null" then .none else if t = "true" then .bool true else if t = "false" then .bool false
  else if isInteger t then .int (readInt t)
  else .float (if t = "NaN" then "nan" else if t = "Infinity" then "inf" else if t = "-Infinity" then "-inf" else t)

/-- The character begins or ends a value that is no number and no name, or stands between two values. -/
def IsMark (c : CodePoint) : Prop := c.val ∈ [34, 44, 91, 93, 123, 125]

instance (c : CodePoint) : Decidable (IsMark c) := inferInstanceAs (Decidable (_ ∈ _))

/-- The text stands for the value, and is one of the words that have no marks. -/
structure IsWord (t : String) (v : PyValue) : Prop where
  read : readWord t = v
  marks : ∀ c ∈ ofString t, ¬ IsMark c
  ne_empty : t ≠ ""

/-- A character of a number is no mark. -/
theorem not_isMark_codePoint {c : Char} (h : isNumeralChar c = true) : ¬ IsMark (codePoint c.toNat) := by
  simp only [isNumeralChar, Bool.or_eq_true, decide_eq_true_eq] at h
  rcases h with (((hdigit | rfl) | rfl) | rfl) | rfl
  · have hbounds : 48 ≤ c.toNat ∧ c.toNat ≤ 57 := by
      simpa [Char.isDigit, UInt32.le_iff_toNat_le] using hdigit
    simp only [IsMark, codePoint_toNat_val, List.mem_cons, List.not_mem_nil, or_false]
    omega
  · decide
  · decide
  · decide
  · decide

/-- A text without marks, code point by code point. -/
theorem not_isMark_ofString {t : String} (h : ∀ c ∈ t.toList, ¬ IsMark (codePoint c.toNat)) :
    ∀ c ∈ ofString t, ¬ IsMark c := by
  intro c hc
  obtain ⟨ch, hch, rfl⟩ := List.mem_map.mp hc
  exact h ch hch

/-- A natural number is written with digits. -/
theorem isDigit_of_mem_natRepr {n : ℕ} {c : Char} (h : c ∈ n.repr.toList) : c.isDigit := by
  rw [Nat.repr, String.toList_ofList] at h
  exact Nat.isDigit_of_mem_toDigits (by decide) (by decide) h

/-- An integer is written with digits and a sign. -/
theorem mem_toString_int {n : ℤ} {c : Char} (h : c ∈ (toString n).toList) : c.isDigit ∨ c = '-' := by
  rw [Int.toString_eq_repr, Int.repr_eq_if] at h
  split_ifs at h with hsign
  · exact .inl (isDigit_of_mem_natRepr h)
  · rw [String.toList_append, List.mem_append] at h
    rcases h with hminus | habs
    · exact .inr (by simpa using hminus)
    · exact .inl (isDigit_of_mem_natRepr habs)

/-- An integer is read from its text. -/
theorem readInt_toString (n : ℤ) : readInt (toString n) = n := by
  have hdigits (n : ℕ) : Nat.ofDigitChars 10 n.repr.toList 0 = n := by
    rw [Nat.repr, String.toList_ofList, Nat.ofDigitChars_toDigits (by decide) (by decide)]
  rw [Int.toString_eq_repr, Int.repr_eq_if, readInt]
  split_ifs with hsign hminus hminus
  · have hdigit := isDigit_of_mem_natRepr (List.mem_of_mem_head? hminus)
    cases hdigit
  · rw [hdigits]
    omega
  · have htail : ("-" ++ (-n).toNat.repr).toList.tail = (-n).toNat.repr.toList := by
      rw [String.toList_append]
      rfl
    rw [htail, hdigits]
    omega
  · rw [String.toList_append] at hminus
    exact absurd rfl hminus

/-- A text with a character that stands in no integer is not one of an integer. -/
theorem isInteger_eq_false {t : String} {c : Char} (hc : c ∈ t.toList) (hdigit : c.isDigit = false) (hsign : c ≠ '-') :
    isInteger t = false := by
  refine List.all_eq_false.mpr ⟨c, hc, ?_⟩
  simp [hdigit, hsign]

/-- The text of an integer is a word for it. -/
theorem isWord_int (n : Int) : IsWord (toString n) (.int n) := by
  have hinteger : isInteger (toString n) = true := by
    refine List.all_eq_true.mpr fun c hc => ?_
    rcases mem_toString_int hc with hdigit | rfl
    · simp [hdigit]
    · rfl
  have hname {name : String} (hname : isInteger name = false) : toString n ≠ name := by
    rintro rfl
    cases hname.symm.trans hinteger
  refine ⟨?_, not_isMark_ofString fun c hc => not_isMark_codePoint ?_, ?_⟩
  · rw [readWord, if_neg (hname (by decide)), if_neg (hname (by decide)), if_neg (hname (by decide)),
      if_pos hinteger, readInt_toString]
  · rcases mem_toString_int hc with hdigit | rfl
    · simp [isNumeralChar, hdigit]
    · rfl
  · intro hempty
    have hzero : (0 : ℤ) = n := by
      calc (0 : ℤ) = readInt "" := rfl
        _ = n := by rw [← hempty, readInt_toString]
    subst hzero
    exact absurd hempty (by decide)

/-- The text of a float stands for it. -/
theorem isWord_float {repr : String} (h : IsFloatRepr repr) : ∃ t, floatText repr = ofString t ∧
    IsWord t (.float repr) := by
  refine ⟨_, rfl, ?_⟩
  rcases h with rfl | rfl | rfl | ⟨hnumeral, hpoint⟩
  · rw [if_pos rfl]
    exact ⟨rfl, forall_mem_ofString (P := fun c => ¬ IsMark c) (by decide), by decide⟩
  · rw [if_neg (by decide), if_pos rfl]
    exact ⟨rfl, forall_mem_ofString (P := fun c => ¬ IsMark c) (by decide), by decide⟩
  · rw [if_neg (by decide), if_neg (by decide), if_pos rfl]
    exact ⟨rfl, forall_mem_ofString (P := fun c => ¬ IsMark c) (by decide), by decide⟩
  · have hname {name : String} (hletter : name.toList.all isNumeralChar = false) : repr ≠ name := by
      rintro rfl
      cases hletter.symm.trans hnumeral
    have hinteger : isInteger repr = false := by
      obtain ⟨c, hc, hpoint⟩ := List.any_eq_true.mp hpoint
      simp only [isPointChar, Bool.or_eq_true, decide_eq_true_eq] at hpoint
      rcases hpoint with rfl | rfl
      · exact isInteger_eq_false hc (by decide) (by decide)
      · exact isInteger_eq_false hc (by decide) (by decide)
    rw [if_neg (hname (by decide)), if_neg (hname (by decide)), if_neg (hname (by decide))]
    refine ⟨?_, not_isMark_ofString fun c hc => not_isMark_codePoint (List.all_eq_true.mp hnumeral c hc), ?_⟩
    · rw [readWord, if_neg (hname (by decide)), if_neg (hname (by decide)), if_neg (hname (by decide)), hinteger,
        if_neg (by decide), if_neg (hname (by decide)), if_neg (hname (by decide)), if_neg (hname (by decide))]
    · rintro rfl
      cases hpoint

/-! ## Values -/

/-- The value is a JSON value whose floats have the texts that `float.__repr__` gives; an object of another type
has no text. -/
inductive FloatsOk : PyValue → Prop
  | none : FloatsOk .none
  | bool (b : Bool) : FloatsOk (.bool b)
  | int (n : ℤ) : FloatsOk (.int n)
  | float {repr : String} (hrepr : IsFloatRepr repr) : FloatsOk (.float repr)
  | str (s : PyStr) : FloatsOk (.str s)
  | list {items : List PyValue} (hitems : ∀ v ∈ items, FloatsOk v) : FloatsOk (.list items)
  | dict {items : List (PyStr × PyValue)} (hitems : ∀ item ∈ items, FloatsOk item.2) : FloatsOk (.dict items)
  | other {obj : Foreign} (hobj : ∀ levels text, obj.writes levels ≠ .ok text) : FloatsOk (.other obj)

/-- A float is a number. -/
theorem isNumber_float (repr : String) :
    (∃ n, PyValue.float repr = .int n) ∨ ∃ repr', PyValue.float repr = .float repr' :=
  .inr ⟨repr, rfl⟩

/-- A float is known by its text. -/
def FloatForms.text : FloatForms := ⟨.float, isNumber_float⟩

/-- Behind the text of a value: the end of the text, or a mark. -/
def Ends (rest : PyStr) : Prop := ∀ c ∈ rest.head?, IsMark c

variable {v w : PyValue} {t t' : PyStr} {levels : ℕ}

/-- All texts are there if each of them is. -/
theorem allTexts_eq_ok {α : Type} {result : α → Except DumpError PyStr} {elements : List α} {texts : List PyStr} :
    allTexts (elements.map result) = .ok texts ↔ List.Forall₂ (fun a text => result a = .ok text) elements texts := by
  induction elements generalizing texts with
  | nil => simp [allTexts, eq_comm]
  | cons a elements ih =>
    rw [List.map_cons, List.forall₂_cons_left_iff]
    cases hresult : result a with
    | error e => simp [allTexts]
    | ok text =>
      rw [allTexts, except_map_eq_ok]
      simp only [ih, Except.ok.injEq]
      constructor
      · rintro ⟨texts, htexts, rfl⟩
        exact ⟨text, texts, rfl, htexts, rfl⟩
      · rintro ⟨_, texts, rfl, htexts, rfl⟩
        exact ⟨texts, htexts, rfl⟩

/-- The text of a list, taken apart. -/
theorem dumps_list {items : List PyValue} (h : dumps levels (.list items) = .ok t) :
    ∃ below texts, levels = below + 1 ∧ List.Forall₂ (fun v text => dumps below v = .ok text) items texts ∧
      t = codePoint 91 :: (joinComma texts ++ [codePoint 93]) := by
  rw [dumps] at h
  obtain ⟨texts, htexts, rfl⟩ := except_map_eq_ok.mp h
  cases levels with
  | zero => cases htexts
  | succ below =>
    simp only [enterLevel, dumpItems_eq_map] at htexts
    exact ⟨below, texts, rfl, allTexts_eq_ok.mp htexts, rfl⟩

/-- The text of a dictionary, with its items sorted before they are written. -/
theorem dumps_dict_eq (levels : ℕ) (items : List (PyStr × PyValue)) :
    dumps levels (.dict items) = (enterLevel levels fun levels => (sortEntries items).map fun item =>
      entryText (item.1, dumps levels item.2)).map
        fun texts => ofString "\x7b" ++ (joinComma texts ++ ofString "\x7d") := by
  simp only [dumps, dumpEntries_eq_map, sortEntries_map, List.map_map]
  rfl

/-- The text of a dictionary, taken apart. -/
theorem dumps_dict {items : List (PyStr × PyValue)} (h : dumps levels (.dict items) = .ok t) :
    ∃ below texts, levels = below + 1 ∧
      List.Forall₂ (fun item text => entryText (item.1, dumps below item.2) = .ok text) (sortEntries items) texts ∧
      t = codePoint 123 :: (joinComma texts ++ [codePoint 125]) := by
  rw [dumps_dict_eq] at h
  obtain ⟨texts, htexts, rfl⟩ := except_map_eq_ok.mp h
  cases levels with
  | zero => cases htexts
  | succ below => exact ⟨below, texts, rfl, allTexts_eq_ok.mp htexts, rfl⟩

/-- The character with which a value begins that is no word. -/
def PyValue.opening : PyValue → Option CodePoint
  | .str _ => some (codePoint 34)
  | .list _ => some (codePoint 91)
  | .dict _ => some (codePoint 123)
  | _ => Option.none

/-- What is neither a string nor a container is written as a word. -/
theorem exists_isWord (hfloats : FloatsOk v) (hopening : v.opening = none) (h : dumps levels v = .ok t) :
    ∃ word, t = ofString word ∧ IsWord word v := by
  cases v with
  | none =>
    obtain rfl := Except.ok.inj h
    exact ⟨_, rfl, rfl, forall_mem_ofString (P := fun c => ¬ IsMark c) (by decide), by decide⟩
  | bool b =>
    obtain rfl := Except.ok.inj h
    cases b
    · exact ⟨_, rfl, rfl, forall_mem_ofString (P := fun c => ¬ IsMark c) (by decide), by decide⟩
    · exact ⟨_, rfl, rfl, forall_mem_ofString (P := fun c => ¬ IsMark c) (by decide), by decide⟩
  | int n =>
    rw [dumps, intText] at h
    split_ifs at h
    obtain rfl := Except.ok.inj h
    exact ⟨_, rfl, isWord_int n⟩
  | float repr =>
    obtain rfl := Except.ok.inj h
    cases hfloats with
    | float hrepr => exact isWord_float hrepr
  | other obj =>
    cases hfloats with
    | other hobj => exact absurd h (hobj levels t)
  | str | list | dict => cases hopening

/-! ## What stands behind a value -/

/-- The text begins, and not with a comma or a closing bracket. -/
def Begins (t : PyStr) : Prop := ∃ c ∈ t.head?, c.val ∉ [44, 93, 125]

/-- How the text of a value begins. -/
theorem opening_of_dumps (hfloats : FloatsOk v) (h : dumps levels v = .ok t) :
    ∃ c ∈ t.head?, c.val ∉ [44, 93, 125] ∧ v.opening = if IsMark c then some c else none := by
  cases hopening : v.opening with
  | none =>
    obtain ⟨word, rfl, hword⟩ := exists_isWord hfloats hopening h
    obtain ⟨c, tail, hcons⟩ : ∃ c tail, ofString word = c :: tail := by
      refine List.exists_cons_of_ne_nil fun hnil => hword.ne_empty ?_
      exact ofString_injective (hnil.trans rfl)
    have hmark : ¬ IsMark c := hword.marks c (by rw [hcons]; exact List.mem_cons_self)
    refine ⟨c, by rw [hcons]; rfl, ?_, (if_neg hmark).symm⟩
    simp only [IsMark, List.mem_cons, List.not_mem_nil, or_false] at hmark ⊢
    omega
  | some c =>
    rw [← hopening]
    cases v with
    | str s =>
      obtain rfl := Except.ok.inj h
      exact ⟨_, rfl, by decide, rfl⟩
    | list items =>
      obtain ⟨_, texts, -, -, rfl⟩ := dumps_list h
      exact ⟨_, rfl, by decide, rfl⟩
    | dict items =>
      obtain ⟨_, texts, -, -, rfl⟩ := dumps_dict h
      exact ⟨_, rfl, by decide, rfl⟩
    | none | bool | int | float | other => cases hopening

/-- The first character of a text stays the first one before any rest. -/
theorem head?_append_of_mem {c : CodePoint} (h : c ∈ t.head?) (rest : PyStr) : (t ++ rest).head? = some c := by
  rw [List.head?_append, Option.mem_def.mp h, Option.some_or]

/-- Texts with the same beginning stand for values of one shape. -/
theorem opening_eq_of_dumps (hv : FloatsOk v) (hw : FloatsOk w) (ht : dumps levels v = .ok t)
    (ht' : dumps levels w = .ok t') (heq : t ++ rest = t' ++ rest') : v.opening = w.opening := by
  obtain ⟨c, hc, -, hopening⟩ := opening_of_dumps hv ht
  obtain ⟨c', hc', -, hopening'⟩ := opening_of_dumps hw ht'
  have hhead := congrArg List.head? heq
  rw [head?_append_of_mem hc, head?_append_of_mem hc'] at hhead
  obtain rfl := Option.some.inj hhead
  rw [hopening, hopening']

/-- A word goes on until a mark. -/
theorem word_append_inj (h : ∀ c ∈ t, ¬ IsMark c) (h' : ∀ c ∈ t', ¬ IsMark c) (hrest : Ends rest)
    (hrest' : Ends rest') (heq : t ++ rest = t' ++ rest') : t = t' ∧ rest = rest' := by
  induction t generalizing t' with
  | nil =>
    cases t' with
    | nil => exact ⟨rfl, heq⟩
    | cons c' t' =>
      obtain rfl : rest = c' :: (t' ++ rest') := heq
      exact absurd (hrest c' rfl) (h' c' List.mem_cons_self)
  | cons c t ih =>
    cases t' with
    | nil =>
      obtain rfl : c :: (t ++ rest) = rest' := heq
      exact absurd (hrest' c rfl) (h c List.mem_cons_self)
    | cons c' t' =>
      obtain ⟨rfl, htail⟩ := List.cons.inj heq
      obtain ⟨rfl, hrests⟩ := ih (fun d hd => h d (List.mem_cons_of_mem _ hd))
        (fun d hd => h' d (List.mem_cons_of_mem _ hd)) htail
      exact ⟨rfl, hrests⟩

/-! ## Parts -/

/-- What stands behind a part, where the other parts and a bracket follow. -/
def behind (close : CodePoint) (rest : PyStr) : List PyStr → PyStr
  | [] => close :: rest
  | part :: parts => codePoint 44 :: (joinComma (part :: parts) ++ close :: rest)

variable {close : CodePoint}

/-- A joined text up to its closing bracket is its first part, and what stands behind it. -/
theorem joinComma_cons_append (part : PyStr) (parts : List PyStr) :
    joinComma (part :: parts) ++ close :: rest = part ++ behind close rest parts := by
  cases parts with
  | nil => rfl
  | cons next parts =>
    rw [joinComma, behind, List.append_assoc, List.append_assoc]
    · rfl
    · simp

/-- Behind a part stands a mark. -/
theorem ends_behind (hclose : close.val = 93 ∨ close.val = 125) (parts : List PyStr) :
    Ends (behind close rest parts) := by
  intro c hc
  cases parts with
  | nil =>
    obtain rfl := Option.some.inj hc
    simp only [IsMark, List.mem_cons]
    omega
  | cons part parts =>
    obtain rfl := Option.some.inj hc
    decide

/-- If each part and what stands behind it are known from the text, so are all parts in brackets. -/
theorem joinComma_append_inj {α : Type} {Has : α → PyStr → Prop} {R : α → α → Prop} {as bs : List α}
    {texts texts' : List PyStr} (hclose : close.val = 93 ∨ close.val = 125) (hbegins : ∀ a t, Has a t → Begins t)
    (hparts : ∀ a ∈ as, ∀ b t t' rest rest', Has a t → Has b t' → Ends rest → Ends rest' → t ++ rest = t' ++ rest' →
      R a b ∧ rest = rest')
    (has : List.Forall₂ Has as texts) (hbs : List.Forall₂ Has bs texts')
    (heq : joinComma texts ++ close :: rest = joinComma texts' ++ close :: rest') :
    List.Forall₂ R as bs ∧ rest = rest' := by
  have hempty {a : α} {t : PyStr} {parts : List PyStr} {rest rest' : PyStr} (ha : Has a t)
      (heq : close :: rest = t ++ behind close rest' parts) : False := by
    obtain ⟨c, hc, hne⟩ := hbegins a t ha
    have hhead := congrArg List.head? heq
    rw [head?_append_of_mem hc] at hhead
    obtain rfl := Option.some.inj hhead
    simp only [List.mem_cons, List.not_mem_nil, or_false] at hne
    omega
  induction has generalizing bs texts' with
  | nil =>
    cases hbs with
    | nil => exact ⟨.nil, (List.cons.inj heq).2⟩
    | cons hb hbs =>
      rw [joinComma_cons_append] at heq
      exact (hempty hb heq).elim
  | @cons a t as texts ha has ih =>
    cases hbs with
    | nil =>
      rw [joinComma_cons_append] at heq
      exact (hempty ha heq.symm).elim
    | @cons b t' bs texts' hb hbs =>
      rw [joinComma_cons_append, joinComma_cons_append] at heq
      obtain ⟨hR, hbehind⟩ := hparts a List.mem_cons_self b t t' _ _ ha hb (ends_behind hclose _)
        (ends_behind hclose _) heq
      have htails : joinComma texts ++ close :: rest = joinComma texts' ++ close :: rest' := by
        have hcomma : close ≠ codePoint 44 := by
          rintro rfl
          exact absurd hclose (by decide)
        cases texts with
        | nil =>
          cases texts' with
          | nil => exact hbehind
          | cons next' texts' => exact absurd (List.cons.inj hbehind).1 hcomma
        | cons next texts =>
          cases texts' with
          | nil => exact absurd (List.cons.inj hbehind).1.symm hcomma
          | cons next' texts' => exact (List.cons.inj hbehind).2
      obtain ⟨hRs, hrest⟩ := ih (fun a' ha' => hparts a' (List.mem_cons_of_mem _ ha')) hbs htails
      exact ⟨.cons hR hRs, hrest⟩

/-! ## Reading values -/

/-- The canonical form of a list, item by item. -/
theorem canonicalItems_eq_map {forms : FloatForms} (items : List PyValue) :
    canonicalItems forms items = items.map (PyValue.canonical forms) := by
  induction items with
  | nil => rfl
  | cons v items ih => rw [canonicalItems, ih, List.map_cons]

/-- The canonical form of a dictionary has its items sorted. -/
theorem canonical_dict {forms : FloatForms} (items : List (PyStr × PyValue)) :
    (PyValue.dict items).canonical forms =
      .dict ((sortEntries items).map fun item => (item.1, item.2.canonical forms)) := by
  rw [← sortEntries_map, ← canonicalEntries_eq_map]
  rfl

/-- Lists with pairwise equal images have equal images. -/
theorem map_eq_map_of_forall₂ {α β : Type} {f : α → β} {as bs : List α}
    (h : List.Forall₂ (fun a b => f a = f b) as bs) : as.map f = bs.map f := by
  induction h with
  | nil => rfl
  | cons hab _ ih => rw [List.map_cons, List.map_cons, hab, ih]

/-- The items of a list keep to the rule for floats. -/
theorem floatsOk_list {items : List PyValue} (h : FloatsOk (.list items)) : ∀ v ∈ items, FloatsOk v := by
  cases h with
  | list hitems => exact hitems

/-- So do the values of a dictionary. -/
theorem floatsOk_dict {items : List (PyStr × PyValue)} (h : FloatsOk (.dict items)) :
    ∀ item ∈ sortEntries items, FloatsOk item.2 := by
  cases h with
  | dict hitems => exact fun item hitem => hitems item ((perm_sortEntries items).mem_iff.mp hitem)

/-- The texts of elements that have a property. -/
theorem forall₂_and {α : Type} {P : α → Prop} {Has : α → PyStr → Prop} {elements : List α} {texts : List PyStr}
    (hP : ∀ a ∈ elements, P a) (h : List.Forall₂ Has elements texts) :
    List.Forall₂ (fun a text => P a ∧ Has a text) elements texts := by
  induction h with
  | nil => exact .nil
  | cons ha _ ih =>
    obtain ⟨hPa, hPs⟩ := List.forall_mem_cons.mp hP
    exact .cons ⟨hPa, ha⟩ (ih hPs)

/-- The texts of the items are known with the texts of the values. -/
theorem entryText_append_inj {item item' : PyStr × PyValue} (ht : entryText (item.1, dumps levels item.2) = .ok t)
    (ht' : entryText (item'.1, dumps levels item'.2) = .ok t')
    (hvalue : ∀ text text', dumps levels item.2 = .ok text → dumps levels item'.2 = .ok text' →
      text ++ rest = text' ++ rest' → PyValue.Same .text item.2 item'.2 ∧ rest = rest')
    (heq : t ++ rest = t' ++ rest') :
    (item.1, item.2.canonical .text) = (item'.1, item'.2.canonical .text) ∧ rest = rest' := by
  obtain ⟨text, htext, rfl⟩ := except_map_eq_ok.mp ht
  obtain ⟨text', htext', rfl⟩ := except_map_eq_ok.mp ht'
  rw [List.append_assoc, List.append_assoc, List.append_assoc, List.append_assoc] at heq
  obtain ⟨hkey, hcolon⟩ := quoted_append_inj heq
  obtain ⟨hsame, hrests⟩ := hvalue text text' htext htext' (List.append_cancel_left hcolon)
  exact ⟨Prod.ext hkey hsame, hrests⟩

/-- A word or a string, and what stands behind it, are known from the text. -/
theorem scalar_append_inj (hscalar : v.isScalar = true) (hv : FloatsOk v) (hw : FloatsOk w)
    (ht : dumps levels v = .ok t) (ht' : dumps levels w = .ok t') (hrest : Ends rest) (hrest' : Ends rest')
    (heq : t ++ rest = t' ++ rest') :
    PyValue.Same .text v w ∧ rest = rest' := by
  have hopening := opening_eq_of_dumps hv hw ht ht' heq
  cases hcase : v.opening with
  | none =>
    obtain ⟨word, rfl, hword⟩ := exists_isWord hv hcase ht
    obtain ⟨word', rfl, hword'⟩ := exists_isWord hw (hopening.symm.trans hcase) ht'
    obtain ⟨htext, hrests⟩ := word_append_inj hword.marks hword'.marks hrest hrest' heq
    obtain rfl := ofString_injective htext
    exact ⟨congrArg _ (hword.read.symm.trans hword'.read), hrests⟩
  | some c =>
    cases v with
    | str s =>
      cases w with
      | str s' =>
        obtain rfl := Except.ok.inj ht
        obtain rfl := Except.ok.inj ht'
        obtain ⟨rfl, hrests⟩ := quoted_append_inj heq
        exact ⟨rfl, hrests⟩
      | none | bool | int | float | list | dict | other => cases hopening
    | none | bool | int | float | other => cases hcase
    | list | dict => cases hscalar

/-- A value and what stands behind it are known from the text. -/
theorem dumps_append_inj (hv : FloatsOk v) (hw : FloatsOk w) (ht : dumps levels v = .ok t)
    (ht' : dumps levels w = .ok t') (hrest : Ends rest) (hrest' : Ends rest') (heq : t ++ rest = t' ++ rest') :
    PyValue.Same .text v w ∧ rest = rest' := by
  induction v using PyValue.tree generalizing levels w t t' rest rest' with
  | scalar v hscalar => exact scalar_append_inj hscalar hv hw ht ht' hrest hrest' heq
  | list items ih =>
    have hopening := opening_eq_of_dumps hv hw ht ht' heq
    cases w with
    | list items' =>
      obtain ⟨below, texts, rfl, htexts, rfl⟩ := dumps_list ht
      obtain ⟨_, texts', ⟨⟩, htexts', rfl⟩ := dumps_list ht'
      simp only [List.cons_append, List.append_assoc, List.cons.injEq, true_and, List.nil_append] at heq
      obtain ⟨hsame, hrests⟩ := joinComma_append_inj (.inl rfl)
        (fun v t h => by
          obtain ⟨c, hc, hne, -⟩ := opening_of_dumps h.1 h.2
          exact ⟨c, hc, hne⟩)
        (fun v hv w t t' rest rest' ht ht' => ih v hv ht.1 ht'.1 ht.2 ht'.2)
        (forall₂_and (floatsOk_list hv) htexts) (forall₂_and (floatsOk_list hw) htexts') heq
      refine ⟨?_, hrests⟩
      unfold PyValue.Same
      rw [PyValue.canonical, PyValue.canonical, canonicalItems_eq_map, canonicalItems_eq_map,
        map_eq_map_of_forall₂ hsame]
    | none | bool | int | float | str | dict | other => cases hopening
  | dict items ih =>
    have hopening := opening_eq_of_dumps hv hw ht ht' heq
    cases w with
    | dict items' =>
      obtain ⟨below, texts, rfl, htexts, rfl⟩ := dumps_dict ht
      obtain ⟨_, texts', ⟨⟩, htexts', rfl⟩ := dumps_dict ht'
      simp only [List.cons_append, List.append_assoc, List.cons.injEq, true_and, List.nil_append] at heq
      obtain ⟨hsame, hrests⟩ := joinComma_append_inj (.inr rfl)
        (fun item t h => by
          obtain ⟨text, -, rfl⟩ := except_map_eq_ok.mp h.2
          exact ⟨codePoint 34, rfl, by decide⟩)
        (fun item hitem item' t t' rest rest' ht ht' hrest hrest' heq =>
          entryText_append_inj ht.2 ht'.2 (fun text text' htext htext' htexts =>
            ih item ((perm_sortEntries items).mem_iff.mp hitem) ht.1 ht'.1 htext htext' hrest hrest' htexts) heq)
        (forall₂_and (floatsOk_dict hv) htexts) (forall₂_and (floatsOk_dict hw) htexts') heq
      refine ⟨?_, hrests⟩
      unfold PyValue.Same
      rw [canonical_dict, canonical_dict, map_eq_map_of_forall₂ hsame]
    | none | bool | int | float | str | list | other => cases hopening

/-- The text of a value does not depend on the order of the items of its dictionaries. -/
theorem dumps_canonical (levels : ℕ) (v : PyValue) : dumps levels (v.canonical .text) = dumps levels v := by
  have henter (levels : ℕ) {parts parts' : ℕ → List (Except DumpError PyStr)}
      (h : ∀ levels, parts levels = parts' levels) :
      enterLevel levels parts = enterLevel levels parts' := congrArg (enterLevel levels) (funext h)
  induction v using PyValue.tree generalizing levels with
  | scalar v hscalar =>
    cases v with
    | list | dict => cases hscalar
    | none | bool | int | float | str | other => rfl
  | list items ih =>
    rw [PyValue.canonical, dumps, dumps]
    refine congrArg (Except.map _) (henter levels fun levels => ?_)
    rw [dumpItems_eq_map, dumpItems_eq_map, canonicalItems_eq_map, List.map_map]
    exact List.map_congr_left fun v hv => ih v hv levels
  | dict items ih =>
    have hsorted {α : Type} (entries : List (PyStr × α)) : sortEntries (sortEntries entries) = sortEntries entries :=
      (List.pairwise_insertionSort _ _).insertionSort_eq
    rw [canonical_dict, dumps_dict_eq, dumps_dict_eq]
    refine congrArg (Except.map _) (henter levels fun levels => ?_)
    rw [sortEntries_map, hsorted, List.map_map]
    refine List.map_congr_left fun item hitem => ?_
    exact congrArg (fun result => entryText (item.1, result))
      (ih item ((perm_sortEntries items).mem_iff.mp hitem) levels)

/-- Two values have the same text exactly if they are equal up to the order of the items of their dictionaries. -/
theorem dumps_eq_ok_iff_same (hv : FloatsOk v) (hw : FloatsOk w) (ht : dumps levels v = .ok t) :
    dumps levels w = .ok t ↔ PyValue.Same .text v w := by
  constructor
  · intro ht'
    have hends : Ends [] := fun c hc => by cases hc
    exact (dumps_append_inj hv hw ht ht' hends hends rfl).1
  · intro hsame
    rw [← dumps_canonical levels w, ← hsame, dumps_canonical, ht]

end PyText
