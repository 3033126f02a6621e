import PgRelay.PyText.Url

/-!
# Base64

`base64.b64decode(s, validate=True)`. Text that is not ASCII is a plain `ValueError`. The decoder itself is
`binascii.a2b_base64` in strict mode, which collects six bits from each character, expects the padding to
complete a group of four, and raises `binascii.Error` for anything else.
-/

namespace PyText

/-- `table_a2b_base64`. -/
def base64Value (c : CodePoint) : Option ℕ :=
  let n := c.val
  if 65 ≤ n ∧ n ≤ 90 then some (n - 65)
  else if 97 ≤ n ∧ n ≤ 122 then some (n - 71)
  else if 48 ≤ n ∧ n ≤ 57 then some (n + 4)
  else if n = 43 then some 62
  else if n = 47 then some 63
  else none

/-- The state of the loop of `binascii.a2b_base64`, with the decoded bytes. -/
structure Base64State where
  quadPos : ℕ
  leftchar : ℕ
  pads : ℕ
  paddingStarted : Bool
  decoded : List UInt8

/-- A character of six bits. -/
def Base64State.push (state : Base64State) (bits : ℕ) : Base64State :=
  let write (leftchar quadPos byte : ℕ) : Base64State :=
    ⟨quadPos, leftchar, 0, state.paddingStarted, state.decoded ++ [UInt8.ofNat byte]⟩
  match state.quadPos with
  | 0 => ⟨1, bits, 0, state.paddingStarted, state.decoded⟩
  | 1 => write (bits % 16) 2 (state.leftchar * 4 + bits / 16)
  | 2 => write (bits % 4) 3 (state.leftchar * 16 + bits / 4)
  | _ => write 0 0 (state.leftchar * 64 + bits)

/-- The loop of `binascii.a2b_base64` in strict mode; `none` is a `binascii.Error`. -/
def a2bBase64 (state : Base64State) : PyStr → Option (List UInt8)
  | [] => if state.quadPos = 0 then some state.decoded else none
  | c :: rest =>
    if c = char '=' then
      if 2 ≤ state.quadPos then
        if 4 ≤ state.quadPos + (state.pads + 1) then if rest = [] then some state.decoded else none
        else a2bBase64 { state with pads := state.pads + 1, paddingStarted := true } rest
      else a2bBase64 { state with paddingStarted := true } rest
    else
      match base64Value c with
      | none => none
      | some bits => if state.paddingStarted then none else a2bBase64 (state.push bits) rest

/-- What `base64.b64decode(s, validate=True)` raises. -/
inductive DecodeError
  /-- `binascii.Error`. -/
  | binascii
  /-- The `ValueError` for text that is not ASCII. -/
  | nonAscii
  deriving DecidableEq, Repr

/-- `base64.b64decode(s, validate=True)`. -/
def b64decode (s : PyStr) : Except DecodeError (List UInt8) :=
  if ¬ IsAscii s then .error .nonAscii
  else if s.head? = some (char '=') then .error .binascii
  else
    match a2bBase64 ⟨0, 0, 0, false, []⟩ s with
    | none => .error .binascii
    | some bytes => .ok bytes

example : (b64decode (ofString "UGc=")).toOption = some [80, 103] := by decide +kernel

/-- The plain `ValueError` comes from the characters that are not ASCII. -/
theorem b64decode_eq_nonAscii {s : PyStr} : b64decode s = .error .nonAscii ↔ ¬ IsAscii s := by
  unfold b64decode
  split_ifs with hascii hpad
  · simp [hascii]
  · split <;> simp [hascii]
  · simp [hascii]

end PyText
