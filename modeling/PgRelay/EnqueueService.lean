import PgRelay.EnqueueRequest

/-!
# The enqueue service

`EnqueueService.enqueue`. It validates a request, which may be a dictionary or a model, and hands what it
has validated to `insert_job` of its repository. The repository is a parameter, as it is in the source; until
it is called, nothing uses the session.
-/

namespace PgRelay

open PyText

/-- What the validation takes from libraries, with the text of a `UnicodeEncodeError`, and the levels that
`json.dumps` can go down where it is called: some thousands, and in any case the two of a payload with headers. -/
structure Library where
  tables : UrlTables
  pydantic : Pydantic
  encodeErrorText : PyValue → PyStr
  levels : ℕ
  two_le_levels : 2 ≤ levels

/-- A library for JSON values and ASCII text. -/
def Library.jsonOnly : Library := ⟨.asciiOnly, .jsonOnly, fun _ => [], 1000, by decide⟩

/-- The keyword arguments of `insert_job`. -/
structure JobInsert where
  queueName : PyStr
  kind : JobKind
  name : PyStr
  payload : PyDict
  headers : PyDict
  metadata : PyDict
  priority : Int
  maxAttempts : Int
  timeoutSeconds : Int
  availableAt : Option Timestamp
  idempotencyKey : Option PyStr
  dedupeKey : Option PyStr
  traceId : Option PyStr

/-- The keyword arguments that a validated request gives, with the payload to be stored. -/
def EnqueueJobRequest.insert (validated : EnqueueJobRequest) (payload : PyDict) : JobInsert where
  queueName := validated.queueName
  kind := validated.kind
  name := validated.name
  payload := payload
  headers := validated.headers
  metadata := validated.metadata
  priority := validated.priority
  maxAttempts := validated.maxAttempts
  timeoutSeconds := validated.timeoutSeconds
  availableAt := validated.availableAt
  idempotencyKey := validated.idempotencyKey.map Subtype.val
  dedupeKey := validated.dedupeKey.map Subtype.val
  traceId := validated.traceId.map Subtype.val

/-- A request: a model that the caller has built, or a dictionary. -/
inductive EnqueueInput
  | model (validated : EnqueueJobRequest)
  | dict (request : PyDict)

/-- A request for an HTTP job with a payload, as the SDK builds it. -/
def httpRequest (payload : PyDict) : EnqueueJobRequest where
  queueName := defaultQueueName
  kind := .http
  name := ⟨ofString "n", by decide⟩
  payload := payload
  headers := .empty
  metadata := .empty
  priority := defaultPriority
  maxAttempts := defaultMaxAttempts
  timeoutSeconds := defaultTimeoutSeconds
  availableAt := none
  idempotencyKey := none
  dedupeKey := none
  traceId := none

section Service

variable (library : Library) (settings : Settings)

/-- The exception that `json_size_bytes` raises. -/
def dumpException (value : PyValue) : Option DumpError → PyException
  | none => unicodeEncodeError (library.encodeErrorText value)
  | some (.typeError message) => typeError (ofString message)
  | some (.valueError message) => valueError (ofString message)
  | some .recursionError => recursionError

/-- `_validate_size`. -/
def validateSize (name : String) (value : PyValue) (maximum : Int) : Except PyException Unit :=
  match jsonSize library.levels value with
  | .error e => .error (dumpException library value e)
  | .ok size =>
    if size > maximum then .error (validationError (ofString (name ++ " exceeds maximum JSON size"))) else .ok ()

/-- The test of `timeout_seconds`. -/
def validateTimeout (timeoutSeconds : Int) : Except PyException Unit :=
  if timeoutSeconds > settings.httpMaxTimeoutSeconds.val then
    .error (validationError (ofString "timeout_seconds exceeds configured maximum"))
  else .ok ()

/-- `_validate_http_payload`. -/
def validateHttpPayload (payload : PyDict) : Except PyException PyDict :=
  match HttpJobPayload.modelValidate library.pydantic payload with
  | none => .error (validationError (library.pydantic.errorText payload.value))
  | some model => do
    validateHeaders model.headers.val
    let hostname ← extractUrlHostname library.tables model.url
    validateAllowedHost library.tables.lower hostname (settings.getAllowedHosts library.tables.lower)
    return model.modelDump

/-- The payload that is stored for a kind of job. -/
def storedPayload (kind : JobKind) (payload : PyDict) : Except PyException PyDict :=
  match kind with
  | .http => validateHttpPayload library settings payload
  | .handler => .ok payload

/-- The validated request. -/
def readRequest : EnqueueInput → Except PyException EnqueueJobRequest
  | .model validated => .ok validated
  | .dict request =>
    match EnqueueJobRequest.modelValidate library.pydantic request with
    | .error exc => .error exc
    | .ok none => .error (validationError (library.pydantic.errorText request.value))
    | .ok (some validated) => .ok validated

/-- `enqueue` up to the call of `insert_job`, with the arguments of that call. -/
def validateRequest (request : EnqueueInput) : Except PyException JobInsert := do
  let validated ← readRequest library request
  validateQueueName validated.queueName
  validateSize library "payload" validated.payload.value settings.maxPayloadBytes
  validateSize library "headers" validated.headers.value settings.maxHeadersBytes
  validateSize library "metadata" validated.metadata.value settings.maxMetadataBytes
  validateTimeout settings validated.timeoutSeconds
  let payload ← storedPayload library settings validated.kind validated.payload
  return validated.insert payload

/-- `EnqueueService.enqueue` with the `insert_job` of a repository. -/
def EnqueueService.enqueue {S R : Type} (insertJob : JobInsert → S → Except PyException R × S)
    (request : EnqueueInput) (session : S) : Except PyException R × S :=
  match validateRequest library settings request with
  | .error exc => (.error exc, session)
  | .ok job => insertJob job session

end Service

variable {library : Library} {settings : Settings}

/-! ## What the steps accept -/

/-- A sequence of checks raises nothing but `ValidationError` if each check that is reached does not. -/
theorem translated_bind {α β : Type} {x : Except PyException α} {f : α → Except PyException β} :
    Translated (x >>= f) ↔ Translated x ∧ ∀ a, x = .ok a → Translated (f a) := by
  cases x with
  | error exc => simp [Translated, bind, Except.bind]
  | ok a => simp [Translated, bind, Except.bind]

/-- A sequence of checks succeeds if each of them does. -/
theorem bind_eq_ok {α β : Type} {x : Except PyException α} {f : α → Except PyException β} {b : β} :
    (x >>= f) = .ok b ↔ ∃ a, x = .ok a ∧ f a = .ok b := by
  cases x <;> simp [bind, Except.bind]

/-- The size cannot be measured exactly if the value has no text in UTF-8. -/
theorem jsonSize_ne_error {levels : ℕ} {v : PyValue} : (∃ e, jsonSize levels v = .error e) ↔ ¬ Dumpable levels v := by
  have hok : (∃ n, jsonSize levels v = .ok n) ↔ Dumpable levels v := by simp [jsonSize_eq_ok]
  rw [← hok]
  cases jsonSize levels v <;> simp

/-- The check of a size comes through for a value that has a text within the limit. -/
theorem validateSize_eq_ok {name : String} {value : PyValue} {maximum : Int} :
    validateSize library name value maximum = .ok () ↔
      Dumpable library.levels value ∧ (textSize value : Int) ≤ maximum := by
  unfold validateSize
  cases hsize : jsonSize library.levels value with
  | error e =>
    have hdump := jsonSize_ne_error.mp ⟨e, hsize⟩
    simp [hdump]
  | ok size =>
    obtain ⟨hdump, rfl⟩ := jsonSize_eq_ok.mp hsize
    simp only [hdump, true_and]
    split_ifs with h
    · simpa using h
    · simpa using h

/-- The measuring of a value raises another error exactly if the value has no text. -/
theorem translated_validateSize {name : String} {value : PyValue} {maximum : Int} :
    Translated (validateSize library name value maximum) ↔ Dumpable library.levels value := by
  unfold validateSize
  cases hsize : jsonSize library.levels value with
  | error e =>
    have hdump := jsonSize_ne_error.mp ⟨e, hsize⟩
    simp only [hdump, iff_false]
    intro htranslated
    have hcls := htranslated _ rfl
    rcases e with _ | _ | _ | _ <;> cases hcls
  | ok size =>
    obtain ⟨hdump, rfl⟩ := jsonSize_eq_ok.mp hsize
    simp only [hdump, iff_true]
    split_ifs
    · exact translated_error _
    · exact translated_ok _

/-- The check of the timeout compares it with the limit. -/
theorem validateTimeout_eq_ok {timeoutSeconds : Int} :
    validateTimeout settings timeoutSeconds = .ok () ↔ timeoutSeconds ≤ settings.httpMaxTimeoutSeconds.val := by
  unfold validateTimeout
  split_ifs with h
  · simpa using h
  · simpa using h

/-- It raises nothing but `ValidationError`. -/
theorem translated_validateTimeout (timeoutSeconds : Int) : Translated (validateTimeout settings timeoutSeconds) := by
  unfold validateTimeout
  split_ifs
  · exact translated_error _
  · exact translated_ok _

/-- A valid HTTP payload: its headers, its URL and its host pass the checks. -/
structure HttpRules (library : Library) (settings : Settings) (model : HttpJobPayload) : Prop where
  headers : ValidHeaders model.headers.val
  host : ∃ hostname, extractUrlHostname library.tables model.url = .ok hostname ∧
    AllowedHost library.tables.lower (settings.getAllowedHosts library.tables.lower) hostname

/-- The checks of an HTTP payload accept what is read as a payload and keeps to the rules, and return its dump. -/
theorem validateHttpPayload_eq_ok {payload stored : PyDict} :
    validateHttpPayload library settings payload = .ok stored ↔
      ∃ model, HttpJobPayload.modelValidate library.pydantic payload = some model ∧
        HttpRules library settings model ∧ model.modelDump = stored := by
  unfold validateHttpPayload
  cases HttpJobPayload.modelValidate library.pydantic payload with
  | none => simp
  | some model =>
    simp only [bind_eq_ok, Option.some.injEq]
    constructor
    · rintro ⟨⟨⟩, hheaders, hostname, hhost, ⟨⟩, hallowed, hstored⟩
      refine ⟨model, rfl, ⟨validateHeaders_eq_ok.mp hheaders, hostname, hhost, ?_⟩, Except.ok.inj hstored⟩
      exact validateAllowedHost_eq_ok.mp hallowed
    · rintro ⟨model', rfl, ⟨hheaders, hostname, hhost, hallowed⟩, rfl⟩
      exact ⟨(), validateHeaders_eq_ok.mpr hheaders, hostname, hhost, (), validateAllowedHost_eq_ok.mpr hallowed, rfl⟩

/-- The checks of an HTTP payload raise another error exactly if they come to a URL that `urlparse` refuses. -/
theorem translated_validateHttpPayload {payload : PyDict} :
    Translated (validateHttpPayload library settings payload) ↔
      ∀ model, HttpJobPayload.modelValidate library.pydantic payload = some model →
        ValidHeaders model.headers.val → urlparse library.tables model.url ≠ none := by
  unfold validateHttpPayload
  cases HttpJobPayload.modelValidate library.pydantic payload with
  | none => simpa using translated_error _
  | some model =>
    simp only [translated_bind, translated_validateHeaders, translated_extractUrlHostname,
      translated_validateAllowedHost, true_and, Option.some.injEq, forall_eq']
    constructor
    · intro h hheaders
      exact (h () (validateHeaders_eq_ok.mpr hheaders)).1
    · rintro h ⟨⟩ hheaders
      refine ⟨h (validateHeaders_eq_ok.mp hheaders), fun hostname _ => fun _ _ => translated_ok _⟩

/-- A value has a text within a limit. -/
def Fits (levels : ℕ) (value : PyValue) (maximum : Int) : Prop :=
  Dumpable levels value ∧ (textSize value : Int) ≤ maximum

/-- What an accepted request has passed. -/
structure Accepts (library : Library) (settings : Settings) (request : EnqueueInput) (validated : EnqueueJobRequest)
    (stored : PyDict) : Prop where
  read : readRequest library request = .ok validated
  queueName : ValidQueueName validated.queueName
  payload : Fits library.levels validated.payload.value settings.maxPayloadBytes
  headers : Fits library.levels validated.headers.value settings.maxHeadersBytes
  metadata : Fits library.levels validated.metadata.value settings.maxMetadataBytes
  timeout : validated.timeoutSeconds.val ≤ settings.httpMaxTimeoutSeconds.val
  stored : storedPayload library settings validated.kind validated.payload = .ok stored

/-- The checks of a request accept it with what they store, and nothing else. -/
theorem validateRequest_eq_ok {request : EnqueueInput} {job : JobInsert} :
    validateRequest library settings request = .ok job ↔
      ∃ validated stored, Accepts library settings request validated stored ∧ validated.insert stored = job := by
  simp only [validateRequest, bind_eq_ok]
  constructor
  · rintro ⟨validated, hread, ⟨⟩, hqueue, ⟨⟩, hpayload, ⟨⟩, hheaders, ⟨⟩, hmetadata, ⟨⟩, htimeout, stored, hstored,
      hjob⟩
    refine ⟨validated, stored, ⟨hread, validateQueueName_eq_ok.mp hqueue, validateSize_eq_ok.mp hpayload,
      validateSize_eq_ok.mp hheaders, validateSize_eq_ok.mp hmetadata, validateTimeout_eq_ok.mp htimeout, hstored⟩, ?_⟩
    exact Except.ok.inj hjob
  · rintro ⟨validated, stored, h, rfl⟩
    exact ⟨validated, h.read, (), validateQueueName_eq_ok.mpr h.queueName, (), validateSize_eq_ok.mpr h.payload, (),
      validateSize_eq_ok.mpr h.headers, (), validateSize_eq_ok.mpr h.metadata, (), validateTimeout_eq_ok.mpr h.timeout,
      stored, h.stored, rfl⟩

end PgRelay
