import PgRelay.Validation
import Mathlib.Computability.Language

/-!
# Names that patterns accept

`QUEUE_NAME_PATTERN` and `HEADER_NAME_PATTERN` are regular expressions. The functions that model their `fullmatch`
read a text once from left to right; here they are compared with the languages of the expressions. For queue names
this is an instance of Arden's rule: the rest of a name after a letter or digit is empty, or goes on with another
letter or digit, of which a separator may stand in front.

The names of a worker's queues come from one setting, between commas. No comma and no blank stands in a queue name,
so every list of valid names can be written there.
-/

namespace PgRelay

open PyText
open scoped Computability

/-! ## Languages -/

/-- Words of one character from a class. -/
def charClass (p : CodePoint → Bool) : Language CodePoint := {s | ∃ c, s = [c] ∧ p c = true}

/-- A text that begins with a character of the class. -/
theorem mem_charClass_mul {p : CodePoint → Bool} {l : Language CodePoint} {s : PyStr} :
    s ∈ charClass p * l ↔ ∃ c rest, s = c :: rest ∧ p c = true ∧ rest ∈ l := by
  rw [Language.mem_mul]
  constructor
  · rintro ⟨_, ⟨c, rfl, hc⟩, rest, hrest, rfl⟩
    exact ⟨c, rest, rfl, hc, hrest⟩
  · rintro ⟨c, rest, rfl, hc, hrest⟩
    exact ⟨[c], ⟨c, rfl, hc⟩, rest, hrest, rfl⟩

/-- It is not empty. -/
theorem nil_notMem_charClass_mul (p : CodePoint → Bool) (l : Language CodePoint) : [] ∉ charClass p * l := by
  rw [mem_charClass_mul]
  rintro ⟨c, rest, hcons, -⟩
  cases hcons

/-- A character is not the empty text. -/
theorem nil_notMem_charClass (p : CodePoint → Bool) : [] ∉ charClass p := by
  rintro ⟨c, hcons, -⟩
  cases hcons

/-- Runs of one language, each of them but the first behind a separator. -/
theorem kstar_add_mul {α : Type} {a b : Language α} (h : [] ∉ a + b * a) : (a + b * a)∗ = a∗ * (b * (a * a∗))∗ := by
  have hfix : a∗ * (b * (a * a∗))∗ = (a + b * a) * (a∗ * (b * (a * a∗))∗) + 1 := by
    calc a∗ * (b * (a * a∗))∗ = (1 + a * a∗) * (b * (a * a∗))∗ := by rw [Language.one_add_self_mul_kstar_eq_kstar]
      _ = (b * (a * a∗))∗ + a * a∗ * (b * (a * a∗))∗ := by rw [add_mul, one_mul]
      _ = 1 + b * (a * a∗) * (b * (a * a∗))∗ + a * a∗ * (b * (a * a∗))∗ := by
        rw [Language.one_add_self_mul_kstar_eq_kstar]
      _ = (a + b * a) * (a∗ * (b * (a * a∗))∗) + 1 := by
        rw [add_mul, mul_assoc a, mul_assoc b, mul_assoc b, mul_assoc a, add_comm, ← add_assoc, add_right_comm]
  have harden := (Language.self_eq_mul_add_iff h).mp hfix
  rw [harden, mul_one]

/-! ## The patterns -/

/-- `[._-]`. -/
def isSeparator (c : CodePoint) : Bool := decide (c ∈ ofString "._-")

/-- `[A-Za-z][A-Za-z0-9]*(?:[._-][A-Za-z0-9]+)*`. -/
def queueNameLanguage : Language CodePoint :=
  charClass isAsciiLetter *
    ((charClass isAlnum)∗ * (charClass isSeparator * (charClass isAlnum * (charClass isAlnum)∗))∗)

/-- The class of `HEADER_NAME_PATTERN`, once or more often. -/
def headerNameLanguage : Language CodePoint := charClass isHeaderNameChar * (charClass isHeaderNameChar)∗

/-- The texts that may follow a letter or digit of a queue name. -/
def queueNameRests : Language CodePoint := {s | queueNameRest false s = true}

/-- What may follow in a queue name. -/
theorem mem_queueNameRests {s : PyStr} : s ∈ queueNameRests ↔ queueNameRest false s = true := Iff.rfl

/-- After a separator comes a letter or a digit. -/
theorem queueNameRest_true {s : PyStr} : queueNameRest true s = true ↔ s ∈ charClass isAlnum * queueNameRests := by
  rw [mem_charClass_mul]
  cases s with
  | nil => simp [queueNameRest]
  | cons c rest =>
    rw [queueNameRest]
    split_ifs with hc
    · simp [hc, mem_queueNameRests]
    · simp [hc]

/-- A rest is empty, or goes on with a letter or digit, or with a separator and a letter or digit. -/
theorem queueNameRests_eq :
    queueNameRests = (charClass isAlnum + charClass isSeparator * charClass isAlnum) * queueNameRests + 1 := by
  have hdisjoint {c : CodePoint} (hc : isAlnum c = true) : isSeparator c = false := by
    have hnone : ∀ c ∈ ofString "._-", isAlnum c = false := forall_mem_ofString (by decide)
    exact decide_eq_false fun hmem => by cases (hnone c hmem).symm.trans hc
  ext s
  rw [Language.mem_add, Language.mem_one, add_mul, Language.mem_add, mul_assoc, mem_charClass_mul, mem_charClass_mul,
    mem_queueNameRests]
  cases s with
  | nil => simp [queueNameRest]
  | cons c rest =>
    rw [queueNameRest]
    split_ifs with hc
    · simp [hc, hdisjoint hc, mem_queueNameRests]
    · simp [hc, isSeparator, queueNameRest_true]

/-- The model of `QUEUE_NAME_PATTERN.fullmatch` accepts the language of the pattern. -/
theorem queueNamePattern_iff {s : PyStr} : queueNamePattern s = true ↔ s ∈ queueNameLanguage := by
  have hnil : [] ∉ charClass isAlnum + charClass isSeparator * charClass isAlnum := by
    rw [Language.mem_add, not_or]
    exact ⟨nil_notMem_charClass _, nil_notMem_charClass_mul _ _⟩
  have harden := (Language.self_eq_mul_add_iff hnil).mp queueNameRests_eq
  rw [mul_one, kstar_add_mul hnil] at harden
  rw [queueNameLanguage, ← harden, mem_charClass_mul]
  cases s with
  | nil => simp [queueNamePattern]
  | cons c rest => simp [queueNamePattern, mem_queueNameRests]

/-- The model of `HEADER_NAME_PATTERN.fullmatch` accepts the language of the pattern. -/
theorem headerNamePattern_iff {s : PyStr} : headerNamePattern s = true ↔ s ∈ headerNameLanguage := by
  have hstar {s : PyStr} : s ∈ (charClass isHeaderNameChar)∗ ↔ s.all isHeaderNameChar = true := by
    induction s with
    | nil => simp [Language.nil_mem_kstar]
    | cons c rest ih =>
      rw [← Language.one_add_self_mul_kstar_eq_kstar, Language.mem_add, mem_charClass_mul]
      simp [Language.mem_one, ih]
  rw [headerNameLanguage, mem_charClass_mul]
  cases s with
  | nil => simp [headerNamePattern]
  | cons c rest => simp [headerNamePattern, hstar]

/-! ## The queues of a worker -/

/-- `get_queue_names`. -/
def getQueueNames (workerQueues : PyStr) : List PyStr := listedParts workerQueues

/-- A text of blanks. -/
def IsBlank (s : PyStr) : Prop := ∀ c ∈ s, isSpace c = true

/-- A name with blanks around it. -/
structure PaddedName where
  before : PyStr
  name : PyStr
  after : PyStr

/-- The text of a padded name. -/
def PaddedName.text (p : PaddedName) : PyStr := p.before ++ p.name ++ p.after

/-- The characters of a queue name. -/
theorem mem_queueNamePattern {s : PyStr} (h : queueNamePattern s = true) :
    ∀ c ∈ s, isAlnum c = true ∨ isSeparator c = true := by
  have hrest {s : PyStr} {afterSeparator : Bool} (h : queueNameRest afterSeparator s = true) :
      ∀ c ∈ s, isAlnum c = true ∨ isSeparator c = true := by
    induction s generalizing afterSeparator with
    | nil => simp
    | cons c rest ih =>
      rw [queueNameRest] at h
      split_ifs at h with hc
      · exact List.forall_mem_cons.mpr ⟨.inl hc, ih h⟩
      · simp only [Bool.and_eq_true] at h
        exact List.forall_mem_cons.mpr ⟨.inr h.1.1, ih h.2⟩
  cases s with
  | nil => simp
  | cons c rest =>
    rw [queueNamePattern, Bool.and_eq_true] at h
    exact List.forall_mem_cons.mpr ⟨.inl (by simp [isAlnum, h.1]), hrest h.2⟩

/-- A queue name has neither blanks nor commas. -/
theorem not_isSpace_of_queueNamePattern {s : PyStr} (h : queueNamePattern s = true) {c : CodePoint} (hc : c ∈ s) :
    isSpace c = false ∧ c ≠ codePoint 44 := by
  have hseparators : ∀ c ∈ ofString "._-", isSpace c = false ∧ c ≠ codePoint 44 := forall_mem_ofString (by decide)
  rcases mem_queueNamePattern h c hc with halnum | hseparator
  · have hcode : 48 ≤ c.val ∧ c.val ≤ 57 ∨ 65 ≤ c.val ∧ c.val ≤ 90 ∨ 97 ≤ c.val ∧ c.val ≤ 122 := by
      simp only [isAlnum, isAsciiLetter, isAsciiDigit, Bool.or_eq_true, Bool.and_eq_true, decide_eq_true_eq] at halnum
      omega
    refine ⟨?_, ?_⟩
    · simp only [isSpace, Bool.or_eq_false_iff, Bool.and_eq_false_iff, decide_eq_false_iff_not, beq_eq_false_iff_ne]
      omega
    · rintro rfl
      exact absurd hcode (by decide)
  · exact hseparators c (of_decide_eq_true hseparator)

/-- Blanks before a text that begins without one are dropped. -/
theorem dropWhile_blank {blank s : PyStr} (hblank : IsBlank blank) (hs : ∀ c ∈ s, isSpace c = false) (hne : s ≠ [])
    (rest : PyStr) : (blank ++ (s ++ rest)).dropWhile isSpace = s ++ rest := by
  rw [List.dropWhile_append_of_pos hblank]
  cases s with
  | nil => exact absurd rfl hne
  | cons c s => exact List.dropWhile_cons_of_neg (by simp [hs c List.mem_cons_self])

/-- Blanks around a text without blanks are stripped. -/
theorem strip_padded {p : PaddedName} (hbefore : IsBlank p.before) (hafter : IsBlank p.after)
    (hname : ∀ c ∈ p.name, isSpace c = false) (hne : p.name ≠ []) : strip p.text = p.name := by
  have hback : (p.after.reverse ++ (p.name.reverse ++ [])).dropWhile isSpace = p.name.reverse ++ [] :=
    dropWhile_blank (fun c hc => hafter c (List.mem_reverse.mp hc)) (fun c hc => hname c (List.mem_reverse.mp hc))
      (by simpa using hne) []
  rw [strip, PaddedName.text, List.append_assoc, dropWhile_blank hbefore hname hne, List.rdropWhile,
    List.reverse_append, ← List.append_nil p.name.reverse, hback, List.append_nil, List.reverse_reverse]

/-- A valid queue name, with blanks around it. -/
structure PaddedName.Valid (p : PaddedName) : Prop where
  before : IsBlank p.before
  name : validateQueueName p.name = .ok ()
  after : IsBlank p.after

/-- A padded name is stripped of its blanks. -/
theorem PaddedName.Valid.strip {p : PaddedName} (h : p.Valid) : strip p.text = p.name ∧ p.name ≠ [] := by
  have hvalid := validateQueueName_eq_ok.mp h.name
  have hne : p.name ≠ [] := List.ne_nil_of_length_pos hvalid.1
  exact ⟨strip_padded h.before h.after (fun c hc => (not_isSpace_of_queueNamePattern hvalid.2.2 hc).1) hne, hne⟩

/-- It has no comma. -/
theorem PaddedName.Valid.comma_notMem {p : PaddedName} (h : p.Valid) : codePoint 44 ∉ p.text := by
  have hcomma : isSpace (codePoint 44) = false := by decide
  intro hmem
  rcases List.mem_append.mp hmem with hfront | hafter
  · rcases List.mem_append.mp hfront with hbefore | hname
    · cases hcomma.symm.trans (h.before _ hbefore)
    · exact (not_isSpace_of_queueNamePattern (validateQueueName_eq_ok.mp h.name).2.2 hname).2 rfl
  · cases hcomma.symm.trans (h.after _ hafter)

/-- `get_queue_names` reads back the names that are written between commas. -/
theorem getQueueNames_intercalate {padded : List PaddedName} (h : ∀ p ∈ padded, p.Valid) :
    getQueueNames ([codePoint 44].intercalate (padded.map PaddedName.text)) = padded.map PaddedName.name := by
  cases hpadded : padded with
  | nil => rfl
  | cons first rest =>
    rw [← hpadded]
    have hne : padded.map PaddedName.text ≠ [] := by simp [hpadded]
    have hcommas : ∀ l ∈ padded.map PaddedName.text, codePoint 44 ∉ l := by
      intro l hl
      obtain ⟨p, hp, rfl⟩ := List.mem_map.mp hl
      exact (h p hp).comma_notMem
    have hnames : (padded.map PaddedName.text).map strip = padded.map PaddedName.name := by
      rw [List.map_map]
      exact List.map_congr_left fun p hp => (h p hp).strip.1
    rw [getQueueNames, listedParts, splitComma, List.splitOn_intercalate _ hcommas hne, hnames, List.filter_eq_self]
    intro name hname
    obtain ⟨p, hp, rfl⟩ := List.mem_map.mp hname
    exact decide_eq_true (h p hp).strip.2

/-- `validate_queue_name` and `validate_header_name` accept the languages of their patterns, queue names with at
most 128 characters. Whatever names a worker is to serve, `get_queue_names` finds them in the setting, in order, if
they are written between commas, with any blanks around them. -/
theorem names_exact : (∀ value, validateQueueName value = .ok () ↔ value ∈ queueNameLanguage ∧ value.length ≤ 128) ∧
    (∀ name, validateHeaderName name = .ok () ↔ name ∈ headerNameLanguage) ∧
    ∀ padded : List PaddedName, (∀ p ∈ padded, p.Valid) →
      getQueueNames ([codePoint 44].intercalate (padded.map PaddedName.text)) = padded.map PaddedName.name := by
  refine ⟨fun value => ?_, fun name => ?_, fun padded h => getQueueNames_intercalate h⟩
  · rw [validateQueueName_eq_ok, ValidQueueName, queueNamePattern_iff]
    constructor
    · rintro ⟨-, hlength, hmem⟩
      exact ⟨hmem, hlength⟩
    · rintro ⟨hmem, hlength⟩
      refine ⟨?_, hlength, hmem⟩
      obtain ⟨c, rest, rfl, -⟩ := mem_charClass_mul.mp hmem
      exact Nat.succ_pos _
  · rw [← headerNamePattern_iff, validateHeaderName]
    split_ifs with hname
    · exact iff_of_true rfl hname
    · exact iff_of_false (by simp) hname

/-- Two queues, one with a blank before its name and one with a tab behind it. -/
theorem names_exact_twoQueues :
    ofString "mail.out" ∈ queueNameLanguage ∧
      getQueueNames (ofString " default,mail.out\t") = [ofString "default", ofString "mail.out"] := by
  have hdefault : validateQueueName (ofString "default") = .ok () :=
    validateQueueName_eq_ok.mpr ⟨by decide, by decide, by decide⟩
  have hmail : validateQueueName (ofString "mail.out") = .ok () :=
    validateQueueName_eq_ok.mpr ⟨by decide, by decide, by decide⟩
  have hvalid : ∀ p ∈ [⟨ofString " ", ofString "default", []⟩, ⟨[], ofString "mail.out", ofString "\t"⟩],
      PaddedName.Valid p := by
    refine List.forall_mem_cons.mpr ⟨⟨forall_mem_ofString (by decide), hdefault, nofun⟩, ?_⟩
    exact List.forall_mem_singleton.mpr ⟨nofun, hmail, forall_mem_ofString (by decide)⟩
  exact ⟨((names_exact.1 _).mp hmail).1, names_exact.2.2 _ hvalid⟩

end PgRelay
