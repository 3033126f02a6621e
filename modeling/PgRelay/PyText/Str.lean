import PgRelay.PyText.Utf8
import Mathlib.Data.List.DropRight

/-!
# String methods

The methods of `str` that programs use on text from outside: `encode`, `lower`, `strip` and `split`.

`str.lower` follows the Unicode tables of the running interpreter, which are left open. A `StrLower` is a
function that agrees with it on ASCII text, where it changes the 26 capital letters only.
-/

namespace PyText

/-! ## Encoding -/

/-- The character of a code point that is no surrogate. -/
def toChar (c : CodePoint) : Char := Char.ofNat c.val

/-- The text of a string without surrogates. -/
def toText (s : PyStr) : String := String.ofList (s.map toChar)

/-- The string has no surrogates, which no encoding can represent. -/
def Encodable (s : PyStr) : Prop := ∀ c ∈ s, ¬ IsSurrogate c

instance (s : PyStr) : Decidable (Encodable s) := List.decidableBAll _ s

/-- `str.encode("utf-8")`; `none` is a `UnicodeEncodeError`. -/
def encodeUtf8 (s : PyStr) : Option ByteArray := if Encodable s then some (toText s).toByteArray else none

/-- A character of Lean is no surrogate. -/
theorem isValidChar_toNat (c : Char) : c.toNat < 0xD800 ∨ 0xDFFF < c.toNat ∧ c.toNat < 0x110000 := c.valid

/-- It is the code point of its number. -/
theorem codePoint_toNat_val (c : Char) : (codePoint c.toNat).val = c.toNat := by
  apply codePoint_val
  have hvalid := isValidChar_toNat c
  omega

/-- It comes back from its code point. -/
theorem toChar_codePoint (c : Char) : toChar (codePoint c.toNat) = c := by
  rw [toChar, codePoint_toNat_val]
  exact Char.ofNat_toNat c

/-- A text comes back from its code points. -/
@[simp] theorem toText_ofString (s : String) : toText (ofString s) = s := by
  simp [toText, ofString, Function.comp_def, toChar_codePoint]

/-- Different texts have different code points. -/
theorem ofString_injective : Function.Injective ofString :=
  Function.LeftInverse.injective toText_ofString

/-- The code point of a character is no surrogate. -/
theorem not_isSurrogate_codePoint (c : Char) : ¬ IsSurrogate (codePoint c.toNat) := by
  rw [IsSurrogate, codePoint_toNat_val]
  have hvalid := isValidChar_toNat c
  omega

/-- A text of characters can be encoded. -/
theorem encodable_ofString (s : String) : Encodable (ofString s) := by
  intro c hc
  obtain ⟨ch, -, rfl⟩ := List.mem_map.mp hc
  exact not_isSurrogate_codePoint ch

/-- A text can be encoded if its parts can. -/
theorem encodable_append {s s' : PyStr} : Encodable (s ++ s') ↔ Encodable s ∧ Encodable s' :=
  List.forall_mem_append

/-- A code point that is no surrogate comes back from its character. -/
theorem codePoint_toChar {c : CodePoint} (hc : ¬ IsSurrogate c) : codePoint (toChar c).toNat = c := by
  have hvalid : Nat.isValidChar c.val := by
    have hlt := c.isLt
    simp only [IsSurrogate] at hc
    simp only [Nat.isValidChar]
    omega
  apply Fin.ext
  rw [codePoint_toNat_val, toChar, Char.ofNat, dif_pos hvalid]
  rfl

/-- A text without surrogates comes back from its characters. -/
theorem ofString_toText {s : PyStr} (h : Encodable s) : ofString (toText s) = s := by
  simp only [ofString, toText, String.toList_ofList, List.map_map]
  exact (List.map_congr_left fun c hc => codePoint_toChar (h c hc)).trans (List.map_id s)

/-- Two strings have the same encoding only if they are the same. -/
theorem encodeUtf8_inj {s s' : PyStr} (h : Encodable s) (h' : Encodable s') :
    encodeUtf8 s = encodeUtf8 s' ↔ s = s' := by
  refine ⟨fun heq => ?_, fun heq => by rw [heq]⟩
  simp only [encodeUtf8, if_pos h, if_pos h', Option.some.injEq, String.toByteArray_inj] at heq
  rw [← ofString_toText h, heq, ofString_toText h']

/-! ## Case -/

/-- ASCII text. -/
def IsAscii (s : PyStr) : Prop := ∀ c ∈ s, c.val < 0x80

instance (s : PyStr) : Decidable (IsAscii s) := List.decidableBAll _ s

/-- A capital ASCII letter becomes small. -/
def asciiLowerChar (c : CodePoint) : CodePoint := if 65 ≤ c.val ∧ c.val ≤ 90 then codePoint (c.val + 32) else c

/-- `str.lower` on ASCII text. -/
def asciiLower (s : PyStr) : PyStr := s.map asciiLowerChar

/-- `str.lower`. -/
structure StrLower where
  lower : PyStr → PyStr
  ascii : ∀ s, IsAscii s → lower s = asciiLower s

/-- A `StrLower` that leaves everything beyond ASCII alone. -/
def StrLower.asciiOnly : StrLower := ⟨asciiLower, fun _ _ => rfl⟩

/-! ## Splitting and stripping -/

/-- `str.isspace` of one character. -/
def isSpace (c : CodePoint) : Bool :=
  let n := c.val
  9 ≤ n && n ≤ 13 || 28 ≤ n && n ≤ 32 || n == 0x85 || n == 0xA0 || n == 0x1680 ||
    0x2000 ≤ n && n ≤ 0x200A || n == 0x2028 || n == 0x2029 || n == 0x202F || n == 0x205F || n == 0x3000

/-- `str.strip()`. -/
def strip (s : PyStr) : PyStr := (s.dropWhile isSpace).rdropWhile isSpace

/-- `str.split(",")`. -/
def splitComma (s : PyStr) : List PyStr := s.splitOn (codePoint 44)

/-! ## Sizes of strings -/

/-- The bytes of a character in UTF-8. -/
def charSize (c : CodePoint) : ℕ := (toChar c).utf8Size

/-- The bytes of a string in UTF-8. -/
def utf8Size (s : PyStr) : ℕ := (s.map charSize).sum

/-- The sizes of two texts add up. -/
@[simp] theorem utf8Size_append (s s' : PyStr) : utf8Size (s ++ s') = utf8Size s + utf8Size s' := by
  simp [utf8Size]

/-- The empty text has no bytes. -/
@[simp] theorem utf8Size_nil : utf8Size [] = 0 := rfl

/-- A further code point adds its bytes. -/
@[simp] theorem utf8Size_cons (c : CodePoint) (s : PyStr) : utf8Size (c :: s) = charSize c + utf8Size s := by
  simp [utf8Size]

/-- The encoding of characters has the bytes of each of them. -/
theorem size_utf8Encode (l : List Char) : l.utf8Encode.size = (l.map Char.utf8Size).sum := by
  induction l with
  | nil => rfl
  | cons c l ih =>
    rw [List.utf8Encode_cons, ByteArray.size_append, ih, List.utf8Encode_singleton]
    simp

/-- The encoding of a text has its size. -/
theorem size_of_encodeUtf8 {s : PyStr} {bytes : ByteArray} (h : encodeUtf8 s = some bytes) :
    bytes.size = utf8Size s := by
  unfold encodeUtf8 at h
  split_ifs at h
  obtain rfl := Option.some.inj h
  rw [toText, String.toByteArray_ofList, size_utf8Encode, List.map_map]
  rfl

end PyText
