import PgRelay.HttpExecutor

/-!
# The headers of a request

`_headers` puts headers of PgRelay beside those of the user. It replaces a header of the same name, but a name
that differs in its case only is another key, and the client then sends both. It also takes the trace id and
the idempotency key as they are, while the headers of the user have been validated.
-/

namespace PgRelay

open PyText

/-! ## Setting a header -/

/-- What is among the headers after one has been set. -/
theorem mem_setHeader {headers : List (PyStr × PyStr)} {name value : PyStr} {header : PyStr × PyStr} :
    header ∈ setHeader headers name value ↔ header = (name, value) ∨ header ∈ headers ∧ header.1 ≠ name := by
  unfold setHeader
  split_ifs with hname
  · obtain ⟨old, hold, holdName⟩ := List.mem_map.mp hname
    rw [List.mem_map]
    constructor
    · rintro ⟨header', hmem, rfl⟩
      split_ifs with h
      · exact .inl rfl
      · exact .inr ⟨hmem, h⟩
    · rintro (rfl | ⟨hmem, hne⟩)
      · exact ⟨old, hold, if_pos holdName⟩
      · exact ⟨header, hmem, if_neg hne⟩
  · have hne (h : header ∈ headers) : header.1 ≠ name := fun heq => hname (List.mem_map.mpr ⟨header, h, heq⟩)
    rw [List.mem_append, List.mem_singleton]
    constructor
    · rintro (h | rfl)
      · exact .inr ⟨h, hne h⟩
      · exact .inl rfl
    · rintro (rfl | ⟨h, -⟩)
      · exact .inr rfl
      · exact .inl h

/-- Setting a header among those of some names. -/
theorem filter_setHeader (p : PyStr → Bool) (headers : List (PyStr × PyStr)) (name value : PyStr) :
    (setHeader headers name value).filter (fun header => p header.1) =
      if p name then setHeader (headers.filter fun header => p header.1) name value
      else headers.filter fun header => p header.1 := by
  have hkeys : name ∈ (headers.filter fun header => p header.1).map Prod.fst ↔
      name ∈ headers.map Prod.fst ∧ p name = true := by
    simp only [List.mem_map, List.mem_filter]
    constructor
    · rintro ⟨header, ⟨hmem, hp⟩, rfl⟩
      exact ⟨⟨header, hmem, rfl⟩, hp⟩
    · rintro ⟨⟨header, hmem, rfl⟩, hp⟩
      exact ⟨header, ⟨hmem, hp⟩, rfl⟩
  by_cases hname : name ∈ headers.map Prod.fst
  · have hreplace (header : PyStr × PyStr) :
        p (if header.1 = name then (name, value) else header).1 = p header.1 := by
      split_ifs with h
      · rw [h]
      · rfl
    rw [setHeader, if_pos hname, List.filter_map]
    simp only [Function.comp_def, hreplace]
    split_ifs with hp
    · rw [setHeader, if_pos (hkeys.mpr ⟨hname, hp⟩)]
    · refine (List.map_congr_left fun header hmem => if_neg fun heq => hp ?_).trans (List.map_id _)
      rw [← heq]
      exact (List.mem_filter.mp hmem).2
  · rw [setHeader, if_neg hname, List.filter_append]
    split_ifs with hp
    · rw [setHeader, if_neg fun h => hname (hkeys.mp h).1]
      simp [hp]
    · simp [hp]

/-- Only the value that was set is left, exactly if no other name was there. -/
theorem setHeader_values {headers : List (PyStr × PyStr)} {name value : PyStr} (h : (headers.map Prod.fst).Nodup) :
    (setHeader headers name value).map Prod.snd = [value] ↔ ∀ header ∈ headers, header.1 = name := by
  constructor
  · intro hvalues header hmem
    by_contra hne
    obtain ⟨only, honly⟩ := List.length_eq_one_iff.mp (by simpa using congrArg List.length hvalues)
    have hset : (name, value) ∈ setHeader headers name value := mem_setHeader.mpr (.inl rfl)
    have hother : header ∈ setHeader headers name value := mem_setHeader.mpr (.inr ⟨hmem, hne⟩)
    rw [honly, List.mem_singleton] at hset hother
    exact hne (congrArg Prod.fst (hother.trans hset.symm))
  · intro hall
    match headers, h with
    | [], _ => rfl
    | [header], _ =>
      have hname : header.1 = name := hall header (by simp)
      simp [setHeader, hname]
    | first :: second :: rest, h =>
      have hsame : first.1 = second.1 := (hall first (by simp)).trans (hall second (by simp)).symm
      simp [hsame] at h

/-! ## Names -/

/-- The headers with a name, whatever its case. -/
def namedLike (name : PyStr) (headers : List (PyStr × PyStr)) : List (PyStr × PyStr) :=
  headers.filter fun header => asciiLower header.1 = asciiLower name

/-- Setting a header sets it among those of its name. -/
theorem namedLike_setHeader (headers : List (PyStr × PyStr)) (name value : PyStr) :
    namedLike name (setHeader headers name value) = setHeader (namedLike name headers) name value := by
  simp [namedLike, filter_setHeader fun header => decide (asciiLower header = asciiLower name)]

/-- It leaves those of another name. -/
theorem namedLike_setHeader_of_ne {name other : PyStr} (h : asciiLower other ≠ asciiLower name)
    (headers : List (PyStr × PyStr)) (value : PyStr) :
    namedLike name (setHeader headers other value) = namedLike name headers := by
  simp [namedLike, filter_setHeader fun header => decide (asciiLower header = asciiLower name), h]

/-- The headers of one name are written differently. -/
theorem namedLike_nodup {headers : List (PyStr × PyStr)} (h : (headers.map Prod.fst).Nodup) (name : PyStr) :
    ((namedLike name headers).map Prod.fst).Nodup :=
  h.sublist (List.filter_sublist.map Prod.fst)

/-- A header name is ASCII. -/
theorem isAscii_of_headerNamePattern {name : PyStr} (h : headerNamePattern name = true) : IsAscii name := by
  have hspecial : ∀ c ∈ ofString "!#$%&'*+-.^_\x60|~", c.val < 0x80 := forall_mem_ofString (by decide)
  simp only [headerNamePattern, Bool.and_eq_true, List.all_eq_true] at h
  intro c hc
  have hchar := h.2 c hc
  simp only [isHeaderNameChar, isAlnum, isAsciiLetter, isAsciiDigit, Bool.or_eq_true, Bool.and_eq_true,
    decide_eq_true_eq] at hchar
  rcases hchar with ((⟨-, hle⟩ | ⟨-, hle⟩) | ⟨-, hle⟩) | hmem
  · omega
  · omega
  · omega
  · exact hspecial c hmem

/-- A header set in place of others is valid if its value is. -/
theorem validHeaders_setHeader {headers : List (PyStr × PyStr)} {name value : PyStr} (h : ValidHeaders headers)
    (hname : headerNamePattern name = true) :
    ValidHeaders (setHeader headers name value) ↔ ¬ HasCrlf value := by
  constructor
  · intro hvalid
    exact (hvalid (name, value) (mem_setHeader.mpr (.inl rfl))).2
  · intro hvalue header hmem
    rcases mem_setHeader.mp hmem with rfl | ⟨hold, -⟩
    · exact ⟨hname, hvalue⟩
    · exact h header hold

/-- So is one of a name that was not there. -/
theorem validHeaders_setHeader_new {headers : List (PyStr × PyStr)} {name value : PyStr}
    (hnew : namedLike name headers = []) (hname : headerNamePattern name = true) :
    ValidHeaders (setHeader headers name value) ↔ ValidHeaders headers ∧ ¬ HasCrlf value := by
  refine ⟨fun hvalid => ⟨fun header hmem => ?_, ?_⟩, fun h => (validHeaders_setHeader h.1 hname).mpr h.2⟩
  · refine hvalid header (mem_setHeader.mpr (.inr ⟨hmem, fun heq => ?_⟩))
    exact List.filter_eq_nil_iff.mp hnew header hmem (by simp [heq])
  · exact (hvalid (name, value) (mem_setHeader.mpr (.inl rfl))).2

/-- The test for an idempotency key finds it in any case. -/
theorem any_idempotencyKey {headers : List (PyStr × PyStr)} (lower : StrLower)
    (h : ∀ header ∈ headers, headerNamePattern header.1 = true) :
    (headers.any fun header => lower.lower header.1 = ofString "idempotency-key") = true ↔
      namedLike (ofString "Idempotency-Key") headers ≠ [] := by
  have hlower : asciiLower (ofString "Idempotency-Key") = ofString "idempotency-key" := by decide
  simp only [List.any_eq_true, decide_eq_true_eq, namedLike, ne_eq, List.filter_eq_nil_iff, hlower]
  push Not
  refine exists_congr fun header => and_congr_right fun hmem => ?_
  rw [lower.ascii _ (isAscii_of_headerNamePattern (h header hmem))]

/-! ## The headers of a job -/

/-- A text is true if it is not empty. -/
theorem truthy_eq_some {s : Option String} {t : PyStr} : truthy s = some t ↔ s.map ofString = some t ∧ t ≠ [] := by
  cases s with
  | none => simp [truthy]
  | some s =>
    have hempty : ofString s = [] ↔ s = "" := ⟨fun h => ofString_injective h, fun h => by rw [h]; rfl⟩
    simp only [truthy, Option.bind_some, Option.map_some, Option.some.injEq]
    split_ifs with h
    · simp only [false_iff, not_and, not_not]
      rintro rfl
      exact hempty.mpr h
    · simp only [Option.some.injEq, iff_self_and]
      rintro rfl
      exact fun hnil => h (hempty.mp hnil)

section Headers

variable (uuid : UuidText) (lower : StrLower) (job : JobRow) (payload : HttpJobPayload)

/-- A header of another name is not touched by the idempotency key. -/
theorem namedLike_jobHeaders {name : PyStr} (h : asciiLower (ofString "Idempotency-Key") ≠ asciiLower name) :
    namedLike name (jobHeaders uuid lower job payload) = namedLike name (tracedHeaders uuid job payload) := by
  unfold jobHeaders
  dsimp only
  split
  · rfl
  · split_ifs
    · rfl
    · exact namedLike_setHeader_of_ne h _ _

/-- A header of another name is not touched by the trace id. -/
theorem namedLike_tracedHeaders {name : PyStr} (h : asciiLower (ofString "X-PgRelay-Trace-Id") ≠ asciiLower name) :
    namedLike name (tracedHeaders uuid job payload) = namedLike name
      (setHeader (setHeader payload.headers.val (ofString "X-PgRelay-Job-Id") (uuid.text job.id))
        (ofString "X-PgRelay-Attempt") (ofString (toString job.attemptCount))) := by
  unfold tracedHeaders
  dsimp only
  split
  · rfl
  · exact namedLike_setHeader_of_ne h _ _

/-- The job id among the headers of the request. -/
theorem namedLike_jobId : namedLike (ofString "X-PgRelay-Job-Id") (jobHeaders uuid lower job payload) =
    setHeader (namedLike (ofString "X-PgRelay-Job-Id") payload.headers.val) (ofString "X-PgRelay-Job-Id")
      (uuid.text job.id) := by
  rw [namedLike_jobHeaders _ _ _ _ (by decide), namedLike_tracedHeaders _ _ _ (by decide),
    namedLike_setHeader_of_ne (by decide), namedLike_setHeader]

/-- The attempt among them. -/
theorem namedLike_attempt : namedLike (ofString "X-PgRelay-Attempt") (jobHeaders uuid lower job payload) =
    setHeader (namedLike (ofString "X-PgRelay-Attempt") payload.headers.val) (ofString "X-PgRelay-Attempt")
      (ofString (toString job.attemptCount)) := by
  rw [namedLike_jobHeaders _ _ _ _ (by decide), namedLike_tracedHeaders _ _ _ (by decide), namedLike_setHeader,
    namedLike_setHeader_of_ne (by decide)]

/-- The trace id, if there is one. -/
theorem namedLike_traceId {traceId : PyStr} (h : truthy job.traceId = some traceId) :
    namedLike (ofString "X-PgRelay-Trace-Id") (jobHeaders uuid lower job payload) =
      setHeader (namedLike (ofString "X-PgRelay-Trace-Id") payload.headers.val) (ofString "X-PgRelay-Trace-Id")
        traceId := by
  rw [namedLike_jobHeaders _ _ _ _ (by decide), tracedHeaders]
  simp only [h]
  rw [namedLike_setHeader, namedLike_setHeader_of_ne (by decide), namedLike_setHeader_of_ne (by decide)]

/-- The idempotency key of the user, before the executor comes to its own. -/
theorem namedLike_idempotencyKey : namedLike (ofString "Idempotency-Key") (tracedHeaders uuid job payload) =
    namedLike (ofString "Idempotency-Key") payload.headers.val := by
  rw [namedLike_tracedHeaders _ _ _ (by decide), namedLike_setHeader_of_ne (by decide),
    namedLike_setHeader_of_ne (by decide)]

/-- The names are valid, those of PgRelay among them. -/
theorem headerNamePattern_tracedHeaders (h : ValidHeaders payload.headers.val) :
    ∀ header ∈ tracedHeaders uuid job payload, headerNamePattern header.1 = true := by
  have hset {headers : List (PyStr × PyStr)} {name : PyStr} (value : PyStr)
      (h : ∀ header ∈ headers, headerNamePattern header.1 = true) (hname : headerNamePattern name = true) :
      ∀ header ∈ setHeader headers name value, headerNamePattern header.1 = true := by
    intro header hmem
    rcases mem_setHeader.mp hmem with rfl | ⟨hold, -⟩
    · exact hname
    · exact h header hold
  have hjobId : headerNamePattern (ofString "X-PgRelay-Job-Id") = true := by decide
  have hattempt : headerNamePattern (ofString "X-PgRelay-Attempt") = true := by decide
  have hnumbered := hset (ofString (toString job.attemptCount))
    (hset (uuid.text job.id) (fun header hmem => (h header hmem).1) hjobId) hattempt
  unfold tracedHeaders
  dsimp only
  split
  · exact hnumbered
  · exact hset _ hnumbered (by decide)

/-- A line break among the code points of a text is one of its characters. -/
theorem hasCrlf_ofString {text : String} (h : HasCrlf (ofString text)) : '\r' ∈ text.toList ∨ '\n' ∈ text.toList := by
  have hmem {c : Char} (hc : char c ∈ ofString text) : c ∈ text.toList := by
    obtain ⟨d, hd, heq⟩ := List.mem_map.mp hc
    obtain rfl : d = c := by rw [← toChar_codePoint d, heq, char, toChar_codePoint]
    exact hd
  exact h.imp hmem hmem

/-- The number of the attempt is written in digits. -/
theorem not_hasCrlf_toString (n : Int) : ¬ HasCrlf (ofString (toString n)) := by
  have hdigits (m : ℕ) : ∀ c ∈ (Nat.repr m).toList, c.isDigit = true := by
    intro c hc
    rw [Nat.toList_repr] at hc
    exact Nat.isDigit_of_mem_toDigits (by decide) (by decide) hc
  have hchars : ∀ c ∈ (toString n).toList, c = '-' ∨ c.isDigit = true := by
    intro c hc
    cases n with
    | ofNat m => exact .inr (hdigits m c hc)
    | negSucc m =>
      rcases List.mem_append.mp ((String.toList_append (s := "-") (t := Nat.repr (m + 1))) ▸ hc) with h | h
      · exact .inl (by simpa using h)
      · exact .inr (hdigits _ c h)
  intro h
  rcases hasCrlf_ofString h with h | h
  · exact absurd (hchars _ h) (by decide)
  · exact absurd (hchars _ h) (by decide)

/-- A UUID has no line break. -/
theorem not_hasCrlf_uuid (id : JobId) : ¬ HasCrlf (uuid.text id) := by
  rintro (h | h)
  · exact absurd (uuid.digits id _ h) (by decide)
  · exact absurd (uuid.digits id _ h) (by decide)

end Headers

/-! ## What the service would have to promise -/

/-- The trace id has no line break, and the idempotency key has none if it becomes a header. -/
def WithoutLineBreaks (inserted : JobInsert) (user : List (PyStr × PyStr)) : Prop :=
  (∀ traceId ∈ inserted.traceId, ¬ HasCrlf traceId) ∧
    (namedLike (ofString "Idempotency-Key") user = [] → ∀ key ∈ inserted.idempotencyKey, ¬ HasCrlf key)

/-- The headers before the idempotency key are valid if the trace id has no line break. -/
theorem validHeaders_tracedHeaders (uuid : UuidText) {job : JobRow} {payload : HttpJobPayload}
    (h : ValidHeaders payload.headers.val) : ValidHeaders (tracedHeaders uuid job payload) ↔
      ∀ traceId, truthy job.traceId = some traceId → ¬ HasCrlf traceId := by
  have hjobId : headerNamePattern (ofString "X-PgRelay-Job-Id") = true := by decide
  have hattempt : headerNamePattern (ofString "X-PgRelay-Attempt") = true := by decide
  have hidentified := (validHeaders_setHeader h hjobId).mpr (not_hasCrlf_uuid uuid job.id)
  have hnumbered := (validHeaders_setHeader hidentified hattempt).mpr (not_hasCrlf_toString job.attemptCount)
  unfold tracedHeaders
  dsimp only
  split
  next htrace => simpa [htrace] using hnumbered
  next traceId htrace =>
    rw [validHeaders_setHeader hnumbered (by decide)]
    simp [htrace]

/-- All headers are valid if the trace id and the key, where they are set, have none. -/
theorem validHeaders_iff (uuid : UuidText) (lower : StrLower) {job : JobRow} {payload : HttpJobPayload}
    (h : ValidHeaders payload.headers.val) : ValidHeaders (jobHeaders uuid lower job payload) ↔
      (∀ traceId, truthy job.traceId = some traceId → ¬ HasCrlf traceId) ∧
        (namedLike (ofString "Idempotency-Key") payload.headers.val = [] →
          ∀ key, truthy job.idempotencyKey = some key → ¬ HasCrlf key) := by
  have hkeys := namedLike_idempotencyKey uuid job payload
  have hany := any_idempotencyKey lower (headerNamePattern_tracedHeaders uuid job payload h)
  rw [hkeys] at hany
  rw [← validHeaders_tracedHeaders uuid h]
  unfold jobHeaders
  dsimp only
  split
  next hkey => simp [hkey]
  next key hkey =>
    split_ifs with hfound
    · simp [hany.mp hfound]
    · have hnone := not_not.mp (mt hany.mpr hfound)
      rw [validHeaders_setHeader_new (hkeys.trans hnone) (by decide)]
      simp [hnone, hkey]

/-- An empty text has no line break anyway. -/
theorem forall_truthy {s : Option String} {param : Option PyStr} (h : s.map ofString = param) :
    (∀ t, truthy s = some t → ¬ HasCrlf t) ↔ ∀ t ∈ param, ¬ HasCrlf t := by
  simp only [truthy_eq_some, h, Option.mem_def]
  constructor
  · intro hall t ht
    by_cases hnil : t = []
    · rw [hnil]
      decide
    · exact hall t ⟨ht, hnil⟩
  · rintro hall t ⟨ht, -⟩
    exact hall t ht

/-- The headers of a name do not depend on the order but for theirs. -/
theorem namedLike_perm {headers headers' : List (PyStr × PyStr)} (h : headers.Perm headers') (name : PyStr) :
    (namedLike name headers).Perm (namedLike name headers') := h.filter _

variable {library : Library} {settings : Settings} {forms : FloatForms} {request : EnqueueInput} {inserted : JobInsert}
  {s : State} {x : Execution}

/-- In a delivery they are valid if the request has no line breaks in them. -/
theorem Delivers.validHeaders_iff (uuid : UuidText) (h : Delivers library settings forms request inserted s x)
    {user payload : HttpJobPayload} (hrules : HttpRules library settings user) (hsame : user.Same forms payload) :
    ValidHeaders (jobHeaders uuid library.tables.lower x.job payload) ↔
      WithoutLineBreaks inserted user.headers.val := by
  have hnone : namedLike (ofString "Idempotency-Key") payload.headers.val = [] ↔
      namedLike (ofString "Idempotency-Key") user.headers.val = [] := by
    rw [← List.length_eq_zero_iff, (namedLike_perm hsame.headers _).length_eq, List.length_eq_zero_iff]
  rw [PgRelay.validHeaders_iff uuid _ (hrules.validHeaders hsame), forall_truthy h.stored.traceId,
    forall_truthy h.stored.idempotencyKey, hnone]
  rfl

/-- The headers that an execution hands to the client are valid exactly if the texts that become headers without
a check have no line breaks. -/
theorem jobHeaders_valid_iff (uuid : UuidText) (h : Delivers library settings forms request inserted s x) :
    ∃ user payload, RequestPayload library request user ∧
      readPayload library.pydantic x.job.payload = some payload ∧
      (ValidHeaders (jobHeaders uuid library.tables.lower x.job payload) ↔
        WithoutLineBreaks inserted user.headers.val) := by
  obtain ⟨user, payload, huser, hrules, hread, hsame⟩ := h.payload
  exact ⟨user, payload, huser, hread, h.validHeaders_iff uuid hrules hsame⟩

/-- A request whose trace id has a line break. -/
def brokenTrace : EnqueueJobRequest :=
  { httpRequest (sampleUser noHeaders none).modelDump with traceId := some ⟨ofString "a\nb", by decide⟩ }

/-- A trace id with a line break is accepted, inserted and executed. -/
theorem delivers_brokenTrace : ∃ s x inserted, inserted.traceId = some (ofString "a\nb") ∧
    Delivers .jsonOnly .smallest verbatimForms (.model brokenTrace) inserted s x := by
  have hok : (validateRequest .jsonOnly .smallest (.model brokenTrace)).isOk = true := by decide +kernel
  have hsent : SentAs verbatimForms (brokenTrace.insert (sampleUser noHeaders none).modelDump)
      (sampleJob [] [] (some "a\nb")) := ⟨rfl, rfl, rfl, rfl⟩
  obtain ⟨x, hx⟩ := exists_delivers hok rfl rfl hsent rfl (by decide +kernel)
  exact ⟨_, x, _, rfl, hx⟩

/-- The condition for this trace id. -/
theorem jobHeaders_valid_iff_brokenTrace : ∃ x inserted user payload, inserted.traceId = some (ofString "a\nb") ∧
    RequestPayload .jsonOnly (.model brokenTrace) user ∧ readPayload .jsonOnly x.payload = some payload ∧
    (ValidHeaders (jobHeaders oneUuid .asciiOnly x payload) ↔ WithoutLineBreaks inserted user.headers.val) := by
  obtain ⟨s, x, inserted, htrace, hx⟩ := delivers_brokenTrace
  obtain ⟨user, payload, huser, hread, hiff⟩ := jobHeaders_valid_iff oneUuid hx
  exact ⟨x.job, inserted, user, payload, htrace, huser, hread, hiff⟩

/-- Its headers are not valid. -/
theorem not_validHeaders_brokenTrace : ¬ ∀ uuid library settings forms request inserted s x payload,
    Delivers library settings forms request inserted s x →
      readPayload library.pydantic x.job.payload = some payload →
        ValidHeaders (jobHeaders uuid library.tables.lower x.job payload) := by
  intro hall
  obtain ⟨s, x, inserted, htrace, hx⟩ := delivers_brokenTrace
  obtain ⟨user, payload, -, hrules, hread, hsame⟩ := hx.payload
  have hvalid := hall oneUuid _ _ _ _ _ _ _ payload hx hread
  exact ((hx.validHeaders_iff oneUuid hrules hsame).mp hvalid).1 _ htrace (by decide)

/-! ## Reserved headers -/

/-- The headers of PgRelay are there once each, whatever the case of a name, and a key of the user is kept. -/
structure ReservedHeaders (uuid : UuidText) (job : JobRow) (user headers : List (PyStr × PyStr)) : Prop where
  jobId : (namedLike (ofString "X-PgRelay-Job-Id") headers).map Prod.snd = [uuid.text job.id]
  attempt : (namedLike (ofString "X-PgRelay-Attempt") headers).map Prod.snd = [ofString (toString job.attemptCount)]
  traceId : ∀ traceId, truthy job.traceId = some traceId →
    (namedLike (ofString "X-PgRelay-Trace-Id") headers).map Prod.snd = [traceId]
  idempotencyKey : namedLike (ofString "Idempotency-Key") user ≠ [] →
    (namedLike (ofString "Idempotency-Key") headers).Perm (namedLike (ofString "Idempotency-Key") user)

/-- Where the user has a name in any case, it is written in this case. -/
def WrittenAs (name : PyStr) (user : List (PyStr × PyStr)) : Prop := ∀ header ∈ namedLike name user, header.1 = name

/-- A header of the user with a reserved name has it in its case, that of the trace id if there is one. -/
structure ReservedCase (inserted : JobInsert) (user : List (PyStr × PyStr)) : Prop where
  jobId : WrittenAs (ofString "X-PgRelay-Job-Id") user
  attempt : WrittenAs (ofString "X-PgRelay-Attempt") user
  traceId : (∃ traceId ∈ inserted.traceId, traceId ≠ []) → WrittenAs (ofString "X-PgRelay-Trace-Id") user

/-- How a header is written does not depend on the order. -/
theorem WrittenAs.perm {name : PyStr} {headers user : List (PyStr × PyStr)} (h : headers.Perm user) :
    WrittenAs name headers ↔ WrittenAs name user :=
  forall_congr' fun _ => by rw [(namedLike_perm h name).mem_iff]

/-- A user's idempotency key is kept, in whatever case it is. -/
theorem jobHeaders_keeps_idempotencyKey (uuid : UuidText) (lower : StrLower) (job : JobRow) {payload : HttpJobPayload}
    (h : ValidHeaders payload.headers.val)
    (hkey : namedLike (ofString "Idempotency-Key") payload.headers.val ≠ []) :
    namedLike (ofString "Idempotency-Key") (jobHeaders uuid lower job payload) =
      namedLike (ofString "Idempotency-Key") payload.headers.val := by
  have hkeys := namedLike_idempotencyKey uuid job payload
  have hfound := (any_idempotencyKey lower (headerNamePattern_tracedHeaders uuid job payload h)).mpr
    (hkeys ▸ hkey)
  rw [← hkeys]
  unfold jobHeaders
  dsimp only
  split
  · rfl
  · rw [if_pos hfound]

/-- In a delivery the reserved headers are right if the user has written them as PgRelay does. -/
theorem Delivers.reservedHeaders_iff (uuid : UuidText) (h : Delivers library settings forms request inserted s x)
    {user payload : HttpJobPayload} (hrules : HttpRules library settings user) (hsame : user.Same forms payload) :
    ReservedHeaders uuid x.job user.headers.val (jobHeaders uuid library.tables.lower x.job payload) ↔
      ReservedCase inserted user.headers.val := by
  have hset (name value : PyStr) :
      (setHeader (namedLike name payload.headers.val) name value).map Prod.snd = [value] ↔
        WrittenAs name user.headers.val := by
    rw [setHeader_values (namedLike_nodup payload.headers.property name), ← WrittenAs.perm hsame.headers]
    rfl
  have htrace (traceId : PyStr) : truthy x.job.traceId = some traceId ↔ traceId ∈ inserted.traceId ∧ traceId ≠ [] := by
    rw [truthy_eq_some, h.stored.traceId]
    rfl
  refine ⟨fun hreserved => ⟨?_, ?_, ?_⟩, fun hcase => ⟨?_, ?_, ?_, ?_⟩⟩
  · have hjobId := hreserved.jobId
    rwa [namedLike_jobId, hset] at hjobId
  · have hattempt := hreserved.attempt
    rwa [namedLike_attempt, hset] at hattempt
  · rintro ⟨traceId, hmem, hne⟩
    have htruthy := (htrace traceId).mpr ⟨hmem, hne⟩
    have hvalues := hreserved.traceId traceId htruthy
    rwa [namedLike_traceId _ _ _ _ htruthy, hset] at hvalues
  · rw [namedLike_jobId, hset]
    exact hcase.jobId
  · rw [namedLike_attempt, hset]
    exact hcase.attempt
  · intro traceId htruthy
    rw [namedLike_traceId _ _ _ _ htruthy, hset]
    exact hcase.traceId ⟨traceId, (htrace traceId).mp htruthy⟩
  · intro hkey
    have hperm := namedLike_perm hsame.headers (ofString "Idempotency-Key")
    have hread : namedLike (ofString "Idempotency-Key") payload.headers.val ≠ [] :=
      fun hnil => hkey (by simpa [hnil] using hperm.symm)
    rw [jobHeaders_keeps_idempotencyKey uuid _ _ (hrules.validHeaders hsame) hread]
    exact hperm

/-- Each header of PgRelay is there once in the request, and no other of its name, exactly if the user has not
written a reserved name in another case. -/
theorem jobHeaders_reserved_iff (uuid : UuidText) (h : Delivers library settings forms request inserted s x) :
    ∃ user payload, RequestPayload library request user ∧
      readPayload library.pydantic x.job.payload = some payload ∧
      (ReservedHeaders uuid x.job user.headers.val (jobHeaders uuid library.tables.lower x.job payload) ↔
        ReservedCase inserted user.headers.val) := by
  obtain ⟨user, payload, huser, hrules, hread, hsame⟩ := h.payload
  exact ⟨user, payload, huser, hread, h.reservedHeaders_iff uuid hrules hsame⟩

/-- A user who names the job. -/
def spoofingUser : HttpJobPayload := sampleUser ⟨[(ofString "x-pgrelay-job-id", ofString "1")], by decide⟩ none

/-- Headers of the user in lower case are accepted, inserted and executed. -/
theorem delivers_spoofing : ∃ s x inserted,
    Delivers .jsonOnly .smallest verbatimForms (.model (httpRequest spoofingUser.modelDump)) inserted s x := by
  have hok : (validateRequest .jsonOnly .smallest (.model (httpRequest spoofingUser.modelDump))).isOk = true := by
    decide +kernel
  have hsent : SentAs verbatimForms ((httpRequest spoofingUser.modelDump).insert spoofingUser.modelDump)
      (sampleJob [("x-pgrelay-job-id", .str "1")] [] none) := ⟨rfl, rfl, rfl, rfl⟩
  obtain ⟨x, hx⟩ := exists_delivers hok rfl rfl hsent rfl (by decide +kernel)
  exact ⟨_, x, _, hx⟩

/-- The condition for these headers. -/
theorem jobHeaders_reserved_iff_spoofing : ∃ x inserted user payload,
    RequestPayload .jsonOnly (.model (httpRequest spoofingUser.modelDump)) user ∧
    readPayload .jsonOnly x.payload = some payload ∧
    (ReservedHeaders oneUuid x user.headers.val (jobHeaders oneUuid .asciiOnly x payload) ↔
      ReservedCase inserted user.headers.val) := by
  obtain ⟨s, x, inserted, hx⟩ := delivers_spoofing
  obtain ⟨user, payload, huser, hread, hiff⟩ := jobHeaders_reserved_iff oneUuid hx
  exact ⟨x.job, inserted, user, payload, huser, hread, hiff⟩

/-- The headers of the user stay beside the reserved ones. -/
theorem not_reservedHeaders_spoofing : ¬ ∀ uuid library settings forms request inserted s x user payload,
    Delivers library settings forms request inserted s x → RequestPayload library request user →
      readPayload library.pydantic x.job.payload = some payload →
        ReservedHeaders uuid x.job user.headers.val (jobHeaders uuid library.tables.lower x.job payload) := by
  intro hall
  obtain ⟨s, x, inserted, hx⟩ := delivers_spoofing
  obtain ⟨user, payload, huser, hrules, hread, hsame⟩ := hx.payload
  have hreserved := hall oneUuid _ _ _ _ _ _ _ user payload hx huser hread
  have hcase := ((hx.reservedHeaders_iff oneUuid hrules hsame).mp hreserved).jobId
  obtain ⟨validated, hvalidated, hmodel⟩ := huser
  obtain rfl := Except.ok.inj hvalidated
  obtain rfl := Option.some.inj (spoofingUser.modelValidate_modelDump.symm.trans hmodel)
  exact absurd (hcase (ofString "x-pgrelay-job-id", ofString "1") (by decide)) (by decide)

end PgRelay
