import Mathlib.Algebra.Ring.Nat
import Mathlib.Data.List.Basic

/-!
# Python strings and the lossy UTF-8 decoder

A Python string is a sequence of code points in which surrogates may stand alone. Bytes are decoded
as `bytes.decode("utf-8", errors="replace")` does it: a byte that cannot continue the character in
progress ends it with U+FFFD and is then looked at as the first byte of the next character, so that
each maximal invalid part is replaced once.

The decoder is a machine that reads one byte at a time. Between the bytes of a character it knows how
many are missing, between which bounds the next one has to lie, and the bits read so far; the bounds
exclude overlong forms, surrogates and values above U+10FFFF.
-/

namespace PyText

/-- A code point, possibly a surrogate. -/
abbrev CodePoint := Fin 0x110000

/-- A Python `str`. -/
abbrev PyStr := List CodePoint

instance : LawfulBEq CodePoint := inferInstance

instance : LawfulBEq PyStr := inferInstance

/-- A surrogate, which no encoding form of Unicode represents alone. -/
def IsSurrogate (c : CodePoint) : Prop := 0xD800 ≤ c.val ∧ c.val ≤ 0xDFFF

instance (c : CodePoint) : Decidable (IsSurrogate c) := inferInstanceAs (Decidable (_ ∧ _))

/-- The code point of a number; only numbers in range are used. -/
def codePoint (n : ℕ) : CodePoint := Fin.ofNat 0x110000 n

/-- A number in the range of the code points is the code point's. -/
theorem codePoint_val {n : ℕ} (h : n < 0x110000) : (codePoint n).val = n := Nat.mod_eq_of_lt h

/-- The string of a text without surrogates. -/
def ofString (s : String) : PyStr := s.toList.map fun c => codePoint c.toNat

/-- U+FFFD. -/
def replacement : CodePoint := codePoint 0xFFFD

/-- A character in progress: the bytes missing after the next one, the bounds of the next byte, and
the value read so far. -/
structure Pending where
  more : ℕ
  low : ℕ
  high : ℕ
  value : ℕ

/-- What the first byte of a character says. -/
inductive Lead
  | ascii (c : CodePoint)
  | start (p : Pending)
  | invalid

/-- Look at a byte as the first byte of a character. -/
def lead (b : UInt8) : Lead :=
  let n := b.toNat
  if n < 0x80 then .ascii (codePoint n)
  else if n < 0xC2 then .invalid
  else if n < 0xE0 then .start ⟨0, 0x80, 0xBF, n - 0xC0⟩
  else if n = 0xE0 then .start ⟨1, 0xA0, 0xBF, 0⟩
  else if n = 0xED then .start ⟨1, 0x80, 0x9F, 0xD⟩
  else if n < 0xF0 then .start ⟨1, 0x80, 0xBF, n - 0xE0⟩
  else if n = 0xF0 then .start ⟨2, 0x90, 0xBF, 0⟩
  else if n < 0xF4 then .start ⟨2, 0x80, 0xBF, n - 0xF0⟩
  else if n = 0xF4 then .start ⟨2, 0x80, 0x8F, 4⟩
  else .invalid

/-- The value with a further byte. -/
def Pending.push (p : Pending) (b : UInt8) : ℕ := p.value * 64 + (b.toNat - 0x80)

/-- Decode a first byte; `rest` decodes what follows it, with the character in progress. -/
def decodeFirst (b : UInt8) (rest : Option Pending → PyStr) : PyStr :=
  match lead b with
  | .ascii c => c :: rest none
  | .start p => rest (some p)
  | .invalid => replacement :: rest none

/-- The decoder, with the character in progress. -/
def decodeFrom : Option Pending → List UInt8 → PyStr
  | none, [] => []
  | some _, [] => [replacement]
  | none, b :: rest => decodeFirst b fun pending => decodeFrom pending rest
  | some p, b :: rest =>
    if p.low ≤ b.toNat ∧ b.toNat ≤ p.high then
      match p.more with
      | 0 => codePoint (p.push b) :: decodeFrom none rest
      | more + 1 => decodeFrom (some ⟨more, 0x80, 0xBF, p.push b⟩) rest
    else replacement :: decodeFirst b fun pending => decodeFrom pending rest

/-- `bytes.decode("utf-8", errors="replace")`. -/
def decodeUtf8 (bytes : List UInt8) : PyStr := decodeFrom none bytes

/-- The least value a character in progress can end with. -/
def Pending.least (p : Pending) : ℕ := (p.value * 64 + (p.low - 0x80)) * 64 ^ p.more

/-- A bound of the values a character in progress can end with. -/
def Pending.bound (p : Pending) : ℕ := (p.value * 64 + (p.high - 0x80) + 1) * 64 ^ p.more

/-- A character in progress will end with a scalar value above ASCII. -/
structure Pending.Ok (p : Pending) : Prop where
  low : 0x80 ≤ p.low
  high : p.high ≤ 0xBF
  least : 0x80 ≤ p.least
  range : p.bound ≤ 0xD800 ∨ 0xDFFF < p.least ∧ p.bound ≤ 0x110000

/-- A sequence that is begun within these bounds comes to a code point that is no surrogate. -/
theorem pending_ok {more low high value : ℕ} (hlow : 0x80 ≤ low) (hhigh : high ≤ 0xBF)
    (hleast : 0x80 ≤ (value * 64 + (low - 0x80)) * 64 ^ more)
    (hrange : (value * 64 + (high - 0x80) + 1) * 64 ^ more ≤ 0xD800 ∨
      0xDFFF < (value * 64 + (low - 0x80)) * 64 ^ more ∧
        (value * 64 + (high - 0x80) + 1) * 64 ^ more ≤ 0x110000) : Pending.Ok ⟨more, low, high, value⟩ :=
  ⟨hlow, hhigh, hleast, hrange⟩

/-- A further byte of a character leaves it on its way to a scalar value. -/
theorem Pending.Ok.push {p : Pending} (h : p.Ok) {b : UInt8}
    (hb : p.low ≤ b.toNat ∧ b.toNat ≤ p.high) {more : ℕ}
    (hmore : p.more = more + 1) : Pending.Ok ⟨more, 0x80, 0xBF, p.push b⟩ := by
  obtain ⟨hlow, hhigh, hleast, hrange⟩ := h
  simp only [Pending.least, Pending.bound, hmore, Nat.pow_succ'] at hleast hrange
  have hpush : p.value * 64 + (p.low - 0x80) ≤ p.push b ∧ p.push b ≤ p.value * 64 + (p.high - 0x80) := by
    unfold Pending.push
    omega
  have hmin : (p.value * 64 + (p.low - 0x80)) * (64 * 64 ^ more) ≤ (p.push b * 64 + (0x80 - 0x80)) * 64 ^ more := by
    rw [← Nat.mul_assoc]
    exact Nat.mul_le_mul_right _ (by omega)
  have hmax : (p.push b * 64 + (0xBF - 0x80) + 1) * 64 ^ more ≤
      (p.value * 64 + (p.high - 0x80) + 1) * (64 * 64 ^ more) := by
    rw [← Nat.mul_assoc]
    exact Nat.mul_le_mul_right _ (by omega)
  exact pending_ok (Nat.le_refl _) (Nat.le_refl _) (by omega) (by omega)

/-- The last byte of a character gives a scalar value above ASCII. -/
theorem Pending.Ok.last {p : Pending} (h : p.Ok) {b : UInt8} (hb : p.low ≤ b.toNat ∧ b.toNat ≤ p.high)
    (hmore : p.more = 0) : codePoint (p.push b) ≠ 0 ∧ ¬ IsSurrogate (codePoint (p.push b)) := by
  obtain ⟨hlow, hhigh, hleast, hrange⟩ := h
  simp only [Pending.least, Pending.bound, hmore, Nat.pow_zero, Nat.mul_one] at hleast hrange
  have hpush : p.value * 64 + (p.low - 0x80) ≤ p.push b ∧ p.push b < p.value * 64 + (p.high - 0x80) + 1 := by
    unfold Pending.push
    omega
  have hval : (codePoint (p.push b)).val = p.push b := codePoint_val (by omega)
  refine ⟨fun hzero => ?_, ?_⟩
  · rw [hzero] at hval
    change 0 = p.push b at hval
    omega
  · unfold IsSurrogate
    rw [hval]
    omega

/-- A first byte gives at most one code point more than it leaves in progress. -/
theorem length_decodeFirst_le {b : UInt8} {rest : Option Pending → PyStr} {n : ℕ}
    (hnone : (rest none).length ≤ n) (hsome : ∀ p, (rest (some p)).length ≤ n + 1) :
    (decodeFirst b rest).length ≤ n + 1 := by
  unfold decodeFirst
  split
  · simpa using hnone
  · exact hsome _
  · simpa using hnone

/-- The decoder writes at most one character for a byte, and one more for a sequence that it has begun. -/
theorem length_decodeFrom_le (bytes : List UInt8) :
    (decodeFrom none bytes).length ≤ bytes.length ∧
      ∀ p, (decodeFrom (some p) bytes).length ≤ bytes.length + 1 := by
  induction bytes with
  | nil => simp [decodeFrom]
  | cons b rest ih =>
    obtain ⟨hnone, hsome⟩ := ih
    have hfirst : (decodeFirst b fun pending => decodeFrom pending rest).length ≤ rest.length + 1 :=
      length_decodeFirst_le hnone hsome
    refine ⟨hfirst, fun p => ?_⟩
    simp only [decodeFrom, List.length_cons]
    split_ifs
    · split
      · simp only [List.length_cons]
        omega
      · exact Nat.le_succ_of_le (hsome _)
    · simp only [List.length_cons]
      omega

/-- Decoding gives at most one code point for each byte. -/
theorem length_decodeUtf8_le (bytes : List UInt8) : (decodeUtf8 bytes).length ≤ bytes.length :=
  (length_decodeFrom_le bytes).1

end PyText
