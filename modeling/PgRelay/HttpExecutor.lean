import PgRelay.PyText.Base64
import PgRelay.PayloadRoundTrip
import PgRelay.EnqueueReports
import PgRelay.Recording

/-!
# The HTTP executor

What `HttpJobExecutor` makes of a job before it sends anything: the checks, the headers and the content of
the request. The job is one that an enqueue has accepted, at any attempt; the columns used here are those it
was inserted with.

Header names are keys of a dictionary here, and differ if their case does. The client sends them as HTTP
headers, for which case does not matter.
-/

namespace PgRelay

open PyText

/-! ## Requests -/

/-- The text of a UUID. -/
structure UuidText where
  text : JobId → PyStr
  digits : ∀ id, ∀ c ∈ text id, isHexDigit c = true ∨ c = char '-'

/-- `headers[name] = value`. -/
def setHeader (headers : List (PyStr × PyStr)) (name value : PyStr) : List (PyStr × PyStr) :=
  if name ∈ headers.map Prod.fst then headers.map fun header => if header.1 = name then (name, value) else header
  else headers ++ [(name, value)]

/-- A text that Python takes for true. -/
def truthy (s : Option String) : Option PyStr := s.bind fun s => if s = "" then none else some (ofString s)

section Executor

variable (uuid : UuidText) (library : Library) (settings : Settings)

/-- The headers of `_headers` before it comes to the idempotency key. -/
def tracedHeaders (job : JobRow) (payload : HttpJobPayload) : List (PyStr × PyStr) :=
  let headers := payload.headers.val
  let headers := setHeader headers (ofString "X-PgRelay-Job-Id") (uuid.text job.id)
  let headers := setHeader headers (ofString "X-PgRelay-Attempt") (ofString (toString job.attemptCount))
  match truthy job.traceId with
  | none => headers
  | some traceId => setHeader headers (ofString "X-PgRelay-Trace-Id") traceId

/-- `_headers`. -/
def jobHeaders (lower : StrLower) (job : JobRow) (payload : HttpJobPayload) : List (PyStr × PyStr) :=
  let headers := tracedHeaders uuid job payload
  match truthy job.idempotencyKey with
  | none => headers
  | some key =>
    if headers.any fun header => lower.lower header.1 = ofString "idempotency-key" then headers
    else setHeader headers (ofString "Idempotency-Key") key

/-- `_content`. -/
def httpContent (payload : HttpJobPayload) : Except PyException (Option (List UInt8)) :=
  match payload.bodyBase64 with
  | none => .ok none
  | some body =>
    match b64decode body with
    | .ok bytes => .ok (some bytes)
    | .error .binascii => .error (validationError (ofString "Invalid base64 request body"))
    | .error .nonAscii => .error (valueError (ofString "string argument should contain only ASCII characters"))

/-- The arguments of `client.stream`. -/
structure HttpRequest where
  method : HttpMethod
  url : PyStr
  headers : List (PyStr × PyStr)
  json : Option JsonBody
  content : Option (List UInt8)
  timeout : Int

/-- `execute` up to the call of the client. -/
def prepareRequest (job : JobRow) : Except PyException HttpRequest :=
  match readPayload library.pydantic job.payload with
  | none => .error (pydanticError (library.pydantic.errorText (pyValue job.payload)))
  | some payload => do
    validateHeaders payload.headers.val
    let hostname ← extractUrlHostname library.tables payload.url
    validateAllowedHost library.tables.lower hostname (settings.getAllowedHosts library.tables.lower)
    let content ← httpContent payload
    return {
      method := payload.method
      url := payload.url
      headers := jobHeaders uuid library.tables.lower job payload
      json := payload.jsonBody
      content := content
      timeout := min job.timeoutSeconds settings.httpMaxTimeoutSeconds.val }

/-- How `HttpJobExecutor.execute` behaves with a client. -/
def httpBehaviour (client : HttpRequest → HttpReply) (job : JobRow) : Behaviour :=
  match prepareRequest uuid library settings job with
  | .error exc => .http (.raised exc)
  | .ok request => .http (client request)

end Executor

/-! ## The jobs of an enqueue -/

/-- The stored parameters of an accepted job. -/
structure SentAs (forms : FloatForms) (inserted : JobInsert) (job : NewJob) : Prop where
  kind : job.kind = inserted.kind
  payload : Stores forms inserted.payload job.payload
  idempotencyKey : job.idempotencyKey.map ofString = inserted.idempotencyKey
  traceId : job.traceId.map ofString = inserted.traceId

/-- A row has the columns of an accepted job that the executor reads. -/
structure StoredAs (forms : FloatForms) (inserted : JobInsert) (row : JobRow) : Prop where
  kind : row.kind = inserted.kind
  payload : Stores forms inserted.payload row.payload
  idempotencyKey : row.idempotencyKey.map ofString = inserted.idempotencyKey
  traceId : row.traceId.map ofString = inserted.traceId

/-- The job of an execution has been inserted with the contents it has, whichever attempt it is. -/
theorem Reachable.inserted_of_execution {s : State} {x : Execution} (h : Reachable s) (hx : x ∈ s.executions) :
    ∃ job, (x.job.id, job) ∈ insertions s.log ∧ job.contents = x.job.contents ∧
      job.idempotencyKey = x.job.idempotencyKey := by
  obtain ⟨c, hc, leaseSeconds, hevent⟩ := h.inv.executions x hx
  have hmem : c ∈ jobLog s.log x.job.id := List.mem_filter.mpr ⟨hc, by simp [hevent, JobEvent.jobId]⟩
  obtain ⟨pre, post, hsplit⟩ := List.append_of_mem hmem
  have hhistory := h.jobHistory x.job.id
  rw [hsplit] at hhistory
  obtain ⟨before, after, hbefore, hacts, -⟩ := hhistory.split
  obtain ⟨t, now, event⟩ := c
  obtain rfl : event = _ := hevent
  cases hacts with
  | claimed hclaim hjob =>
    obtain ⟨job, hmem, hsame⟩ := hbefore.exists_inserted
      (fun j => (j.contents, j.indexKey)) (fun job => (job.contents, job.indexKey))
      (fun _ _ _ hacts => Prod.ext hacts.contents_eq hacts.indexKey_eq) (fun _ _ _ => rfl)
    obtain ⟨hcontents, hindex⟩ := Prod.mk.inj hsame
    have hrow := congrArg Execution.job hjob
    have hcontents' : job.contents = x.job.contents := hcontents.trans (congrArg JobRow.contents hrow).symm
    have hindex' : job.indexKey = x.job.indexKey := hindex.trans (congrArg JobRow.indexKey hrow).symm
    refine ⟨job, ?_, hcontents', ?_⟩
    · obtain ⟨op, hop, hinserted⟩ := mem_insertions.mp hmem
      have hlog : op ∈ jobLog s.log x.job.id := by
        rw [hsplit]
        exact List.mem_append_left _ hop
      exact mem_insertions.mpr ⟨op, (List.mem_filter.mp hlog).1, hinserted⟩
    · have hqueue : job.queueName = x.job.queueName := congrArg JobContents.queueName hcontents'
      unfold NewJob.indexKey JobRow.indexKey at hindex'
      rw [hqueue] at hindex'
      exact Option.map_injective (fun _ _ h => (Prod.mk.inj h).2) hindex'

/-- Every execution of an accepted job has the columns of the job. -/
theorem Reachable.stored_of_execution {s : State} {x : Execution} {forms : FloatForms} {inserted : JobInsert}
    {job : NewJob} (h : Reachable s) (hx : x ∈ s.executions) (hjob : (x.job.id, job) ∈ insertions s.log)
    (hsent : SentAs forms inserted job) : StoredAs forms inserted x.job := by
  obtain ⟨job', hmem, hcontents, hkey⟩ := h.inserted_of_execution hx
  obtain rfl := h.inv.logOk.insertion_unique hjob hmem
  refine ⟨?_, ?_, ?_, ?_⟩
  · rw [← hsent.kind]
    exact (congrArg JobContents.kind hcontents).symm
  · have hpayload : job.payload = x.job.payload := congrArg JobContents.payload hcontents
    exact hpayload ▸ hsent.payload
  · rw [← hkey]
    exact hsent.idempotencyKey
  · have htrace : job.traceId = x.job.traceId := congrArg JobContents.traceId hcontents
    exact htrace ▸ hsent.traceId

/-- An execution of an HTTP job that an accepted request has inserted, at whatever attempt. -/
structure Delivers (library : Library) (settings : Settings) (forms : FloatForms) (request : EnqueueInput)
    (inserted : JobInsert) (s : State) (x : Execution) : Prop where
  accepted : validateRequest library settings request = .ok inserted
  http : inserted.kind = .http
  reachable : Reachable s
  execution : x ∈ s.executions
  sent : ∃ job, (x.job.id, job) ∈ insertions s.log ∧ SentAs forms inserted job

/-- The payload that a request is validated to have. -/
def RequestPayload (library : Library) (request : EnqueueInput) (user : HttpJobPayload) : Prop :=
  ∃ validated, readRequest library request = .ok validated ∧
    HttpJobPayload.modelValidate library.pydantic validated.payload = some user

variable {library : Library} {settings : Settings} {forms : FloatForms} {request : EnqueueInput} {inserted : JobInsert}
  {s : State} {x : Execution}

/-- The row of an execution has the columns of the accepted job. -/
theorem Delivers.stored (h : Delivers library settings forms request inserted s x) : StoredAs forms inserted x.job := by
  obtain ⟨job, hmem, hsent⟩ := h.sent
  exact h.reachable.stored_of_execution h.execution hmem hsent

/-- The executor reads the payload of the request, which has passed the rules of the service. -/
theorem Delivers.payload (h : Delivers library settings forms request inserted s x) :
    ∃ user payload, RequestPayload library request user ∧ HttpRules library settings user ∧
      readPayload library.pydantic x.job.payload = some payload ∧ user.Same forms payload := by
  obtain ⟨validated, stored, haccepts, hinsert⟩ := validateRequest_eq_ok.mp h.accepted
  have hstored := haccepts.stored
  have hkind : validated.kind = .http := by
    rw [← h.http, ← hinsert]
    rfl
  rw [hkind] at hstored
  obtain ⟨user, huser, hrules, rfl⟩ := validateHttpPayload_eq_ok.mp hstored
  have hstores : Stores forms user.modelDump x.job.payload := by
    have hpayload := h.stored.payload
    rwa [← hinsert] at hpayload
  obtain ⟨payload, hread, hsame⟩ : ∃ payload, readPayload library.pydantic x.job.payload = some payload ∧
      user.Same forms payload := readPayload_of_stores hstores
  exact ⟨user, payload, ⟨validated, haccepts.read, huser⟩, hrules, hread, hsame⟩

/-- The headers of the payload that is read are valid as those of the user are. -/
theorem HttpRules.validHeaders {user payload : HttpJobPayload} (h : HttpRules library settings user)
    (hsame : user.Same forms payload) : ValidHeaders payload.headers.val :=
  fun header hheader => h.headers header (hsame.headers.mem_iff.mp hheader)

/-- A request whose payload is a dump stores it as it is. -/
theorem validateRequest_modelDump {validated : EnqueueJobRequest} {user : HttpJobPayload}
    (hok : (validateRequest library settings (.model validated)).isOk = true) (hkind : validated.kind = .http)
    (hpayload : validated.payload = user.modelDump) :
    validateRequest library settings (.model validated) = .ok (validated.insert user.modelDump) := by
  obtain ⟨inserted, hresult⟩ := exists_eq_ok_of_isOk hok
  obtain ⟨validated', stored, haccepts, rfl⟩ := validateRequest_eq_ok.mp hresult
  obtain rfl := Except.ok.inj haccepts.read
  have hstored := haccepts.stored
  rw [hkind, hpayload] at hstored
  obtain ⟨model, hmodel, -, rfl⟩ := validateHttpPayload_eq_ok.mp hstored
  rw [user.modelValidate_modelDump] at hmodel
  rw [hresult, Option.some.inj hmodel]

/-! ## A delivery -/

/-- Floats are compared by their text. -/
def verbatimForms : FloatForms := ⟨.float, fun repr => .inr ⟨repr, rfl⟩⟩

/-- A UUID, which serves for one job. -/
def oneUuid : UuidText where
  text _ := ofString "00000000-0000-4000-8000-000000000000"
  digits _ := forall_mem_ofString (by decide)

/-- No headers. -/
def noHeaders : StrDict := ⟨[], List.nodup_nil⟩

/-- A payload with some headers and a body. -/
def sampleUser (headers : StrDict) (body : Option (BoundedStr 0 10485760)) : HttpJobPayload :=
  ⟨.post, ⟨ofString "http://a/", by decide⟩, headers, none, body, .inl rfl⟩

/-- A job with such a payload in its columns. -/
def sampleJob (headers : List (String × Json)) (body : List (String × Json)) (traceId : Option String) : NewJob :=
  let payload := .obj ([("method", .str "POST"), ("url", .str "http://a/"), ("headers", .obj headers)] ++ body)
  { handlerJob "default" 10 with kind := .http, name := "n", payload := payload, traceId := traceId }

/-- A job is enqueued and claimed. -/
def deliveredRun (job : NewJob) : List Action :=
  transaction 0 (.enqueue job) 5 ++ transaction 1 (.claimLoop ⟨"w", ["default"], 1, 60, 10⟩) 10

/-- The execution of a sample job. -/
theorem exists_delivers {validated : EnqueueJobRequest} {user : HttpJobPayload} {job : NewJob}
    (hok : (validateRequest library settings (.model validated)).isOk = true) (hkind : validated.kind = .http)
    (hpayload : validated.payload = user.modelDump) (hsent : SentAs forms (validated.insert user.modelDump) job)
    (hinsertions : insertions (stateAfter 0 (deliveredRun job)).log = [(0, job)])
    (hclaimed : (stateAfter 0 (deliveredRun job)).executions[0]?.map (fun x => x.job.id) = some 0) :
    ∃ x, Delivers library settings forms (.model validated) (validated.insert user.modelDump)
      (stateAfter 0 (deliveredRun job)) x := by
  obtain ⟨x, hx, hid⟩ := Option.map_eq_some_iff.mp hclaimed
  refine ⟨x, validateRequest_modelDump hok hkind hpayload, hkind, reachable_stateAfter 0 _,
    List.mem_of_getElem? hx, job, ?_, hsent⟩
  rw [hinsertions, hid]
  exact List.mem_singleton_self _

end PgRelay
