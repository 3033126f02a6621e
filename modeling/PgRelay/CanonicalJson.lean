import PgRelay.PyText.JsonReading

/-!
# Canonical JSON

`utils/json.py` serializes a value deterministically: the text, its length and its SHA-256 digest are to depend on
the JSON value alone. Two values get the same text exactly if they are equal but for the order in which their
dictionaries list the items. A digest then tells apart all values but those whose texts collide under SHA-256,
which is left open here.
-/

namespace PgRelay

open PyText

/-- `canonical_json_dumps`, where the interpreter goes down so many levels. -/
def canonicalJsonDumps (levels : ℕ) (value : PyValue) : Except DumpError PyStr := dumps levels value

/-- `canonical_json_dumps(value).encode("utf-8")`; the error is `none` for a surrogate in the text. -/
def canonicalJsonBytes (levels : ℕ) (value : PyValue) : Except (Option DumpError) ByteArray :=
  match canonicalJsonDumps levels value with
  | .error e => .error (some e)
  | .ok text =>
    match encodeUtf8 text with
    | none => .error none
    | some bytes => .ok bytes

/-- `json_size_bytes`. -/
def jsonSizeBytes (levels : ℕ) (value : PyValue) : Except (Option DumpError) ℕ :=
  (canonicalJsonBytes levels value).map ByteArray.size

/-- `sha256_json`, by the digests of `hashlib.sha256`. -/
def sha256Json (levels : ℕ) (hexdigest : ByteArray → String) (value : PyValue) : Except (Option DumpError) String :=
  (canonicalJsonBytes levels value).map hexdigest

variable {value value' : PyValue} {bytes : ByteArray} {levels : ℕ}

/-- `json_size_bytes` is the number of bytes of the canonical text. -/
theorem jsonSizeBytes_eq (levels : ℕ) (value : PyValue) : jsonSizeBytes levels value = jsonSize levels value := by
  unfold jsonSizeBytes canonicalJsonBytes canonicalJsonDumps jsonSize
  cases dumps levels value with
  | error e => rfl
  | ok text => cases hbytes : encodeUtf8 text <;> simp only [hbytes, Except.map]

/-- The bytes are the UTF-8 encoding of the canonical text. -/
theorem canonicalJsonBytes_eq_ok :
    canonicalJsonBytes levels value = .ok bytes ↔
      ∃ text, dumps levels value = .ok text ∧ encodeUtf8 text = some bytes := by
  unfold canonicalJsonBytes canonicalJsonDumps
  cases dumps levels value with
  | error e => simp
  | ok text => cases hbytes : encodeUtf8 text <;> simp [hbytes]

/-- A value has canonical bytes exactly if JSON knows all that is in it. -/
theorem exists_canonicalJsonBytes : (∃ bytes, canonicalJsonBytes levels value = .ok bytes) ↔ Dumpable levels value := by
  rw [← (dumps_spec levels value).dumpable]
  simp only [canonicalJsonBytes_eq_ok, encodeUtf8]
  constructor
  · rintro ⟨bytes, text, htext, hbytes⟩
    split_ifs at hbytes with hencodable
    exact ⟨text, htext, hencodable⟩
  · rintro ⟨text, htext, hencodable⟩
    exact ⟨_, text, htext, if_pos hencodable⟩

/-- The canonical bytes determine the value. -/
theorem canonicalJsonBytes_iff_same (hvalue : FloatsOk value) (hvalue' : FloatsOk value')
    (hbytes : canonicalJsonBytes levels value = .ok bytes) :
    canonicalJsonBytes levels value' = .ok bytes ↔ PyValue.Same .text value value' := by
  obtain ⟨text, htext, hencode⟩ := canonicalJsonBytes_eq_ok.mp hbytes
  rw [← dumps_eq_ok_iff_same hvalue hvalue' htext, canonicalJsonBytes_eq_ok]
  constructor
  · rintro ⟨text', htext', hencode'⟩
    have hencodable {s : PyStr} (h : encodeUtf8 s = some bytes) : Encodable s := by
      by_contra hnot
      rw [encodeUtf8, if_neg hnot] at h
      cases h
    have heq := hencode.trans hencode'.symm
    rwa [(encodeUtf8_inj (hencodable hencode) (hencodable hencode')).mp heq]
  · intro htext'
    exact ⟨text, htext', hencode⟩

/-- A value that JSON knows, and that is no deeper than the interpreter goes, has a canonical text and a digest.
Another value has the same text exactly if it is equal up to the order of the items of the dictionaries in it; both
then have the same size and digest. It has the same digest only if it is equal in this sense, or if the two texts
are different and have the same SHA-256 digest. -/
theorem canonicalJson_determines (hvalue : FloatsOk value) (hvalue' : FloatsOk value')
    (hdumpable : Dumpable levels value) :
    (canonicalJsonDumps levels value' = canonicalJsonDumps levels value ↔ PyValue.Same .text value value') ∧
      ∃ bytes, canonicalJsonBytes levels value = .ok bytes ∧ jsonSizeBytes levels value = .ok bytes.size ∧
        (PyValue.Same .text value value' → jsonSizeBytes levels value' = .ok bytes.size) ∧
        ∀ hexdigest, sha256Json levels hexdigest value = .ok (hexdigest bytes) ∧
          (sha256Json levels hexdigest value' = sha256Json levels hexdigest value ↔
            PyValue.Same .text value value' ∨ ∃ bytes', canonicalJsonBytes levels value' = .ok bytes' ∧ bytes' ≠ bytes ∧
              hexdigest bytes' = hexdigest bytes) := by
  obtain ⟨bytes, hbytes⟩ := exists_canonicalJsonBytes.mpr hdumpable
  have hsame := canonicalJsonBytes_iff_same hvalue hvalue' hbytes
  refine ⟨?_, bytes, hbytes, congrArg _ hbytes, fun h => congrArg _ (hsame.mpr h), fun hexdigest => ?_⟩
  · obtain ⟨text, htext, -⟩ := (dumps_spec levels value).dumpable.mpr hdumpable
    rw [canonicalJsonDumps, canonicalJsonDumps, htext]
    exact dumps_eq_ok_iff_same hvalue hvalue' htext
  · have hdigest : sha256Json levels hexdigest value = .ok (hexdigest bytes) := congrArg _ hbytes
    refine ⟨hdigest, ?_⟩
    rw [hdigest, sha256Json, except_map_eq_ok, ← hsame]
    constructor
    · rintro ⟨bytes', hbytes', heq⟩
      by_cases hne : bytes' = bytes
      · exact .inl (hne ▸ hbytes')
      · exact .inr ⟨bytes', hbytes', hne, heq⟩
    · rintro (hbytes' | ⟨bytes', hbytes', -, heq⟩)
      · exact ⟨bytes, hbytes', rfl⟩
      · exact ⟨bytes', hbytes', heq⟩

/-- A body with a float in a list. -/
def scoredBody : PyValue :=
  .dict [(ofString "name", text "a"), (ofString "scores", .list [.float "1.5", .none])]

/-- Another order of the items gives the same text. -/
theorem canonicalJson_determines_scoredBody :
    canonicalJsonDumps 2 (.dict [(ofString "scores", .list [.float "1.5", .none]), (ofString "name", text "a")]) =
      canonicalJsonDumps 2 scoredBody := by
  have hfloats : FloatsOk (.list [.float "1.5", .none]) := by
    refine .list ?_
    simp only [List.forall_mem_cons, List.not_mem_nil, IsEmpty.forall_iff, implies_true, and_true]
    exact ⟨.float (by decide), .none⟩
  have hdumpable : Dumpable 1 (.list [.float "1.5", .none]) := by
    refine .list ?_
    simp only [List.forall_mem_cons, List.not_mem_nil, IsEmpty.forall_iff, implies_true, and_true]
    exact ⟨.float _, .none⟩
  refine (canonicalJson_determines (.dict ?_) (.dict ?_) (.dict ?_ ?_)).1.mpr (by rfl)
  all_goals simp only [List.forall_mem_cons, List.not_mem_nil, IsEmpty.forall_iff, implies_true, and_true]
  · exact ⟨.str _, hfloats⟩
  · exact ⟨hfloats, .str _⟩
  · exact ⟨encodable_ofString _, encodable_ofString _⟩
  · exact ⟨.str (encodable_ofString _), hdumpable⟩

end PgRelay
