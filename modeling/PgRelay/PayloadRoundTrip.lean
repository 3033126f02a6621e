import PgRelay.PayloadSize

/-!
# From the enqueue to the worker

The stored payload is the dump of a validated one. The column is `jsonb`: what comes back is an equal JSON
value, with the items of its objects in an order of its own. The worker validates it again, and comes to the
payload that the enqueue had validated.

The SDK normalises a payload before the service does it again, which changes nothing any more. But the
service measures what it is given: of the SDK the normalised payload, which can be the larger one. So a request
that is stored may be refused to the SDK.
-/

namespace PgRelay

open PyText

mutual

/-- The value that a `jsonb` column is read as. -/
def pyValue : Json → PyValue
  | .null => .none
  | .bool b => .bool b
  | .int n => .int n
  | .float text => .float text
  | .str s => text s
  | .arr items => .list (pyValues items)
  | .obj fields => .dict (pyFields fields)

/-- The items of an array. -/
def pyValues : List Json → List PyValue
  | [] => []
  | j :: items => pyValue j :: pyValues items

/-- The fields of an object. -/
def pyFields : List (String × Json) → List (PyStr × PyValue)
  | [] => []
  | (key, j) :: fields => (ofString key, pyValue j) :: pyFields fields

end

/-- `HttpJobPayload.model_validate(job.payload)`. -/
def readPayload (pydantic : Pydantic) (payload : Json) : Option HttpJobPayload :=
  (pyValue payload).asDict.bind (HttpJobPayload.modelValidate pydantic)

/-- The column holds a payload: it is read as an equal JSON value. -/
def Stores (forms : FloatForms) (payload : PyDict) (column : Json) : Prop :=
  PyValue.Same forms payload.value (pyValue column)

/-- The models are the same: they agree but for the order in the dictionaries. -/
structure HttpJobPayload.Same (forms : FloatForms) (model model' : HttpJobPayload) : Prop where
  method : model'.method = model.method
  url : model'.url = model.url
  headers : model'.headers.val.Perm model.headers.val
  jsonBody : model'.jsonBody.map (fun body => body.val.canonical forms) =
    model.jsonBody.map fun body => body.val.canonical forms
  bodyBase64 : model'.bodyBase64 = model.bodyBase64

variable {forms : FloatForms} {library : Library} {settings : Settings} {model : HttpJobPayload}

/-! ## Reading back -/

/-- The canonical form of a value is of its kind. -/
theorem isScalar_canonical (v : PyValue) : (v.canonical forms).isScalar = v.isScalar := by
  cases v <;> try rfl
  case float repr => rcases forms.number repr with ⟨n, h⟩ | ⟨repr', h⟩ <;> simp [PyValue.canonical, h, PyValue.isScalar]

/-- Only a string is read where a string was written. -/
theorem get_str {d d' : PyDict} {key : String} {s : PyStr} (h : d.get key = some (.str s))
    (hsame : (d'.get key).map (PyValue.canonical forms) = (d.get key).map (PyValue.canonical forms)) :
    d'.get key = some (.str s) := by
  rw [h, Option.map_some, Option.map_eq_some_iff] at hsame
  obtain ⟨v, hv, hcanonical⟩ := hsame
  rw [hv, canonical_eq_str.mp hcanonical]

/-- Only an optional string is read where one was written. -/
theorem get_boundedStr {low high : ℕ} {d d' : PyDict} {key : String} {written : Option (BoundedStr low high)}
    (h : d.get key = written.map fun body => .str body.val)
    (hsame : (d'.get key).map (PyValue.canonical forms) = (d.get key).map (PyValue.canonical forms)) :
    d'.get key = written.map fun body => .str body.val := by
  cases written with
  | none =>
    rw [h] at hsame
    exact Option.map_eq_none_iff.mp hsame
  | some body => exact get_str h hsame

/-- Headers are read back in some order. -/
theorem exists_values {headers : StrDict} {v : PyValue}
    (h : PyValue.Same forms (.dict (StrDict.values headers)) v) :
    ∃ headers' : StrDict, v = .dict (StrDict.values headers') ∧ headers'.val.Perm headers.val := by
  obtain ⟨items, rfl, hperm⟩ := h.dict
  have hvalues : canonicalEntries forms (StrDict.values headers) = StrDict.values headers := by
    simp [canonicalEntries_eq_map, StrDict.values, Function.comp_def, PyValue.canonical]
  rw [hvalues] at hperm
  let toHeader (item : PyStr × PyValue) : PyStr × PyStr := (item.1, item.2.asStr.getD [])
  have hitem (item : PyStr × PyValue) (hmem : item ∈ items) : item = ((toHeader item).1, .str (toHeader item).2) := by
    have hentry : (item.1, item.2.canonical forms) ∈ StrDict.values headers := by
      rw [hperm.mem_iff, canonicalEntries_eq_map]
      exact List.mem_map_of_mem hmem
    obtain ⟨header, -, hheader⟩ := List.mem_map.mp hentry
    have hstr : item.2 = .str header.2 := canonical_eq_str.mp (Prod.mk.inj hheader).2.symm
    exact Prod.ext rfl (by simp [toHeader, hstr, PyValue.asStr])
  have hitems : canonicalEntries forms items = items := by
    rw [canonicalEntries_eq_map]
    refine (List.map_congr_left fun item hmem => ?_).trans (List.map_id items)
    rw [hitem item hmem]
    rfl
  have hback : (StrDict.values headers).map toHeader = headers.val := by
    simp [StrDict.values, toHeader, Function.comp_def, PyValue.asStr]
  rw [hitems] at hperm
  have hheaders : headers.val.Perm (items.map toHeader) := hback ▸ hperm.map toHeader
  have hnodup : ((items.map toHeader).map Prod.fst).Nodup := (hheaders.map Prod.fst).nodup_iff.mp headers.property
  refine ⟨⟨items.map toHeader, hnodup⟩, congrArg PyValue.dict ?_, hheaders.symm⟩
  rw [StrDict.values, List.map_map]
  exact ((List.map_congr_left fun item hmem => (hitem item hmem).symm).trans (List.map_id items)).symm

/-- Payloads with the same fields have the same JSON body. -/
theorem jsonField_canonical {d d' : PyDict}
    (hsame : ∀ key, (d'.get key).map (PyValue.canonical forms) = (d.get key).map (PyValue.canonical forms)) :
    (jsonField d').map (PyValue.canonical forms) = (jsonField d).map (PyValue.canonical forms) := by
  have horElse (a b : Option PyValue) : (a <|> b).map (PyValue.canonical forms) =
      (a.map (PyValue.canonical forms) <|> b.map (PyValue.canonical forms)) := by
    cases a <;> rfl
  rw [jsonField, jsonField, horElse, horElse, hsame, hsame]

/-- A list or a dictionary is read where one was written. -/
theorem exists_jsonBody {field : Option PyValue} {written : Option JsonBody}
    (h : field.map (PyValue.canonical forms) = written.map fun body => body.val.canonical forms) :
    ∃ jsonBody : Option JsonBody, field = jsonBody.map Subtype.val ∧
      (jsonBody.map fun body => body.val.canonical forms) = written.map fun body => body.val.canonical forms := by
  cases field with
  | none => exact ⟨none, rfl, h⟩
  | some w =>
    obtain ⟨body, hbody, hw⟩ := Option.map_eq_some_iff.mp h.symm
    have hcontainer : w.isScalar = false := by
      calc w.isScalar = (w.canonical forms).isScalar := (isScalar_canonical w).symm
        _ = body.val.isScalar := by rw [← hw, isScalar_canonical]
        _ = false := body.property
    exact ⟨some ⟨w, hcontainer⟩, rfl, h⟩

/-- What is read of a stored dump is the model that was dumped. -/
theorem readPayload_of_stores {column : Json} (h : Stores forms model.modelDump column) :
    ∃ model', readPayload library.pydantic column = some model' ∧ model.Same forms model' := by
  obtain ⟨hmethod, hurl, hheaders, hjson, hbody⟩ := model.get_modelDump
  obtain ⟨d, hcolumn, -, hsame⟩ := PyDict.same_value h
  have hcontent : (d.get "headers").map (PyValue.canonical forms) =
      some (PyValue.canonical forms (.dict (StrDict.values model.headers))) := by
    rw [hsame, hheaders, Option.map_some]
  obtain ⟨v, hv, hcanonical⟩ := Option.map_eq_some_iff.mp hcontent
  obtain ⟨headers, rfl, hperm⟩ := exists_values hcanonical.symm
  have hbodies : (jsonField d).map (PyValue.canonical forms) =
      model.jsonBody.map fun body => body.val.canonical forms := by
    rw [jsonField_canonical hsame, hjson, Option.map_map]
    rfl
  obtain ⟨jsonBody, hjsonBody, hjsonSame⟩ := exists_jsonBody hbodies
  have hchoice : jsonBody = none ∨ model.bodyBase64 = none := by
    rcases model.bodyChoice with hnone | hnone
    · rw [hnone] at hjsonSame
      exact .inl (Option.map_eq_none_iff.mp hjsonSame)
    · exact .inr hnone
  refine ⟨⟨model.method, model.url, headers, jsonBody, model.bodyBase64, hchoice⟩, ?_,
    ⟨rfl, rfl, hperm, hjsonSame, rfl⟩⟩
  rw [readPayload, hcolumn, d.asDict_value, Option.bind_some]
  refine modelValidate_eq_some.mpr ⟨?_, ?_, ?_, ?_, ?_⟩
  · rw [get_str hmethod (hsame _)]
    exact parseMethod_name _
  · rw [get_str hurl (hsame _)]
    exact boundedStr_str _
  · rw [hv]
    exact strDict_values _
  · rw [hjsonBody]
    exact optional_container _
  · rw [get_boundedStr hbody (hsame _)]
    exact optional_boundedStr _

/-! ## The SDK -/

/-- The arguments of `enqueue_http` that make the payload. -/
structure HttpCall where
  method : PyStr
  url : PyStr
  jsonBody : Option JsonBody
  bodyBase64 : Option PyStr
  httpHeaders : Option StrDict

/-- An argument as the value of an item, `None` if it is missing. -/
def argument (v : Option PyValue) : PyValue := v.getD .none

/-- The dictionary that `enqueue_http` validates. -/
def HttpCall.dict (call : HttpCall) : PyDict where
  items := [(ofString "method", .str call.method), (ofString "url", .str call.url),
    (ofString "headers", .dict (StrDict.values (call.httpHeaders.getD ⟨[], List.nodup_nil⟩))),
    (ofString "json", argument (call.jsonBody.map Subtype.val)),
    (ofString "body_base64", argument (call.bodyBase64.map .str))]
  nodup := by
    have hkeys : (["method", "url", "headers", "json", "body_base64"].map ofString).Nodup := by decide
    exact hkeys

/-- The payload of the request that `enqueue_http` makes, if it is valid. -/
def sdkPayload (pydantic : Pydantic) (call : HttpCall) : Option PyDict :=
  (HttpJobPayload.modelValidate pydantic call.dict).map HttpJobPayload.modelDump

/-- A payload asks for what a call of the SDK asks for: it has the same values under its keys, or leaves out a
key whose default the call has. -/
structure SameRequest (payload : PyDict) (call : HttpCall) : Prop where
  method : (payload.get "method").getD (text "POST") = .str call.method
  url : payload.get "url" = some (.str call.url)
  headers : (payload.get "headers").getD (.dict []) =
    .dict (StrDict.values (call.httpHeaders.getD ⟨[], List.nodup_nil⟩))
  jsonBody : argument (jsonField payload) = argument (call.jsonBody.map Subtype.val)
  bodyBase64 : argument (payload.get "body_base64") = argument (call.bodyBase64.map .str)

/-- A field with a default is read like one in which the default is written out. -/
theorem withDefault_getD {α : Type} {default : α} {parse : PyValue → Option α} {v : PyValue}
    (hv : parse v = some default) (field : Option PyValue) :
    withDefault default parse field = parse (field.getD v) := by
  cases field with
  | none => exact hv.symm
  | some w => rfl

/-- A missing field is read like one that is `None`. -/
theorem optional_argument {α : Type} {parse : PyValue → Option α} (field : Option PyValue) :
    optional parse field = optional parse (some (argument field)) := by
  cases field <;> rfl

/-- No headers are read from the empty dictionary. -/
theorem strDict_empty {pydantic : Pydantic} : pydantic.strDict (.dict []) = some ⟨[], List.nodup_nil⟩ :=
  strDict_values ⟨[], List.nodup_nil⟩

/-- A call asks for what its payload says. -/
theorem HttpCall.sameRequest_dict (call : HttpCall) : SameRequest call.dict call := by
  constructor <;> simp [jsonField, PyDict.get, HttpCall.dict, lookup_cons, argument]

/-- What a call asks for is validated in the same way, in whatever form. -/
theorem SameRequest.readFrom_iff {payload : PyDict} {call : HttpCall} {pydantic : Pydantic}
    (h : SameRequest payload call) : model.ReadFrom pydantic payload ↔ model.ReadFrom pydantic call.dict := by
  have hsame {payload : PyDict} (h : SameRequest payload call) : model.ReadFrom pydantic payload ↔
      parseMethod (.str call.method) = some model.method ∧
        pydantic.boundedStr 1 2048 (.str call.url) = some model.url ∧
        pydantic.strDict (.dict (StrDict.values (call.httpHeaders.getD ⟨[], List.nodup_nil⟩))) = some model.headers ∧
        optional pydantic.container (some (argument (call.jsonBody.map Subtype.val))) = some model.jsonBody ∧
        optional (pydantic.boundedStr 0 10485760) (some (argument (call.bodyBase64.map .str))) =
          some model.bodyBase64 := by
    have hmethod := withDefault_getD (parseMethod_name .post) (payload.get "method")
    rw [← h.method, ← h.headers, ← h.jsonBody, ← h.bodyBase64, ← optional_argument, ← optional_argument,
      ← withDefault_getD strDict_empty]
    change _ ↔ parseMethod ((payload.get "method").getD (text HttpMethod.post.name)) = _ ∧ _
    rw [← hmethod]
    constructor
    · rintro ⟨hmethod, hurl, hheaders, hjson, hbody⟩
      rw [h.url] at hurl
      exact ⟨hmethod, hurl, hheaders, hjson, hbody⟩
    · rintro ⟨hmethod, hurl, hheaders, hjson, hbody⟩
      exact ⟨hmethod, by rw [h.url]; exact hurl, hheaders, hjson, hbody⟩
  rw [hsame h, hsame call.sameRequest_dict]

/-- The dictionary of a call and any payload that asks for the same validate to the same model. -/
theorem sdkPayload_of_sameRequest {payload : PyDict} {call : HttpCall} {pydantic : Pydantic}
    (h : SameRequest payload call) (hmodel : HttpJobPayload.modelValidate pydantic payload = some model) :
    sdkPayload pydantic call = some model.modelDump := by
  have hcall := modelValidate_eq_some.mpr (h.readFrom_iff.mp (modelValidate_eq_some.mp hmodel))
  rw [sdkPayload, hcall, Option.map_some]

/-- The request that the SDK makes of a call for the same job: its payload is normalised, and it has no headers of
its own. -/
def EnqueueJobRequest.normalised (validated : EnqueueJobRequest) (payload : PyDict) : EnqueueJobRequest :=
  { validated with kind := .http, payload := payload, headers := .empty }

/-! ## The round trip -/

variable {request : EnqueueInput} {validated : EnqueueJobRequest} {job : JobInsert}

/-- A job is of the kind that was requested. -/
theorem kind_of_validateRequest (h : validateRequest library settings (.model validated) = .ok job) :
    job.kind = validated.kind := by
  obtain ⟨validated', stored, haccepts, rfl⟩ := validateRequest_eq_ok.mp h
  obtain rfl := Except.ok.inj haccepts.read
  rfl

/-- The stored payload of an HTTP job is the dump of the model that was read of the validated request. -/
theorem exists_dumped (hread : readRequest library request = .ok validated)
    (h : validateRequest library settings request = .ok job) (hkind : job.kind = .http) :
    ∃ model : HttpJobPayload, Accepts library settings request validated model.modelDump ∧ validated.kind = .http ∧
      job.payload = model.modelDump ∧ model.ReadFrom library.pydantic validated.payload ∧
      HttpRules library settings model := by
  obtain ⟨validated', stored, haccepts, rfl⟩ := validateRequest_eq_ok.mp h
  obtain rfl := Except.ok.inj (haccepts.read.symm.trans hread)
  have hstored := haccepts.stored
  rw [show validated'.kind = .http from hkind] at hstored
  obtain ⟨model, hmodel, hrules, rfl⟩ := validateHttpPayload_eq_ok.mp hstored
  exact ⟨model, haccepts, hkind, rfl, modelValidate_eq_some.mp hmodel, hrules⟩

/-- A dump that passes the checks is stored as it is. -/
theorem validateHttpPayload_modelDump (hrules : HttpRules library settings model) :
    validateHttpPayload library settings model.modelDump = .ok model.modelDump :=
  validateHttpPayload_eq_ok.mpr ⟨model, model.modelValidate_modelDump, hrules, rfl⟩

/-- The worker reads the model of an accepted payload from whatever the column returns, and passes it. -/
theorem exists_readPayload {column : Json} (hrules : HttpRules library settings model)
    (h : Stores forms model.modelDump column) : ∃ model', readPayload library.pydantic column = some model' ∧
      model.Same forms model' ∧ HttpRules library settings model' := by
  obtain ⟨model', hread, hsame⟩ := readPayload_of_stores h
  refine ⟨model', hread, hsame, ?_, ?_⟩
  · exact fun header hheader => hrules.headers header (hsame.headers.mem_iff.mp hheader)
  · rw [hsame.url]
    exact hrules.host

/-- A body is stored as a value that is written alike, and as it is unless it is an object of a type that JSON
does not have. -/
theorem exists_stored_body {payload : PyDict} (h : model.ReadFrom library.pydantic payload) {body : PyValue}
    (hbody : jsonField payload = some body) (hne : body ≠ .none) : ∃ stored,
      model.modelDump.get "json" = some stored ∧
        (∀ levels, Dumpable levels body → dumps levels stored = dumps levels body) ∧
        (body.isOther = false → stored = body) := by
  rcases eq_of_optional h.jsonBody with ⟨-, hfield | hfield⟩ | ⟨v, body', hfield, -, hjson, hparse⟩
  · cases hfield.symm.trans hbody
  · exact absurd (Option.some.inj (hbody.symm.trans hfield)) hne
  · obtain rfl := Option.some.inj (hbody.symm.trans hfield)
    refine ⟨body'.val, ?_, fun levels hdump => dumps_of_container hdump hparse, fun hv => eq_of_container hv hparse⟩
    rw [model.get_json_modelDump, hjson, Option.map_some]

/-- The limit of the headers is more than no headers need. -/
theorem fits_empty_headers : Fits library.levels PyDict.empty.value settings.maxHeadersBytes := by
  obtain ⟨levels, hlevels⟩ := Nat.exists_eq_add_of_le' library.two_le_levels
  have hmax := settings.maxHeadersBytes.property.1
  have hsize : textSize PyDict.empty.value = 2 := by decide
  refine ⟨?_, by omega⟩
  rw [hlevels]
  exact dumpable_dict.mpr (by simp [PyDict.empty])

/-- The normalised request is stored with the same payload exactly if that keeps to the limit. -/
theorem stores_normalised_iff (haccepts : Accepts library settings request validated model.modelDump)
    (hrules : HttpRules library settings model) :
    (∃ sdkJob, validateRequest library settings (.model (validated.normalised model.modelDump)) = .ok sdkJob ∧
      sdkJob.payload = model.modelDump) ↔ Fits library.levels model.modelDump.value settings.maxPayloadBytes := by
  constructor
  · rintro ⟨sdkJob, hsdk, -⟩
    obtain ⟨validated', stored, haccepts', -⟩ := validateRequest_eq_ok.mp hsdk
    obtain rfl := Except.ok.inj haccepts'.read
    exact haccepts'.payload
  · intro hfits
    refine ⟨_, validateRequest_eq_ok.mpr ⟨_, model.modelDump, ⟨rfl, haccepts.queueName, hfits, fits_empty_headers,
      haccepts.metadata, haccepts.timeout, ?_⟩, rfl⟩, rfl⟩
    exact validateHttpPayload_modelDump hrules

/-- The payload of a validated request round-trips with the one that is stored: the worker reads the model of the
request from what the column returns, and passes it; normalising the stored payload again changes nothing; a
body is stored with all that is in it; and the SDK, which makes a request with the stored payload of every call
that asks for the same, has it stored as it is. -/
structure RoundTrips (library : Library) (settings : Settings) (validated : EnqueueJobRequest) (job : JobInsert) :
    Prop where
  worker : ∃ model, HttpJobPayload.modelValidate library.pydantic validated.payload = some model ∧
    job.payload = model.modelDump ∧ ∀ forms column, Stores forms job.payload column → ∃ model',
      readPayload library.pydantic column = some model' ∧ model.Same forms model' ∧ HttpRules library settings model'
  idempotent : validateHttpPayload library settings job.payload = .ok job.payload
  body : ∀ body, jsonField validated.payload = some body → body ≠ .none → ∃ stored,
    job.payload.get "json" = some stored ∧
      (∀ levels, Dumpable levels body → dumps levels stored = dumps levels body) ∧
      (body.isOther = false → stored = body)
  call : ∀ call, SameRequest validated.payload call → sdkPayload library.pydantic call = some job.payload
  sdk : ∃ sdkJob, validateRequest library settings (.model (validated.normalised job.payload)) = .ok sdkJob ∧
    sdkJob.payload = job.payload

/-- The payload of an accepted HTTP request round-trips exactly if it leaves room for its defaults. Otherwise the
request is stored, and the SDK is refused the same. -/
theorem roundTrips_iff_leavesRoom (hread : readRequest library request = .ok validated)
    (h : validateRequest library settings request = .ok job) (hkind : job.kind = .http) :
    RoundTrips library settings validated job ↔ LeavesRoom settings validated.payload := by
  obtain ⟨model, haccepts, -, hstored, hmodel, hrules⟩ := exists_dumped hread h hkind
  have hvalidate := modelValidate_eq_some.mpr hmodel
  rw [← fits_modelDump_iff haccepts.payload.1 hmodel, ← stores_normalised_iff haccepts hrules]
  constructor
  · intro hround
    have hsdk := hround.sdk
    rwa [hstored] at hsdk
  · intro hsdk
    constructor
    · exact ⟨model, hvalidate, hstored, fun forms column hcolumn => exists_readPayload hrules (hstored ▸ hcolumn)⟩
    · rw [hstored]
      exact validateHttpPayload_modelDump hrules
    · intro body hbody hne
      rw [hstored]
      exact exists_stored_body hmodel hbody hne
    · intro call hsame
      rw [hstored]
      exact sdkPayload_of_sameRequest hsame hvalidate
    · rwa [hstored]

/-- A payload with a null inside its body. -/
def nestedNullPayload : PyDict :=
  ⟨[(ofString "url", text "http://a/"), (ofString "json", .dict [(ofString "x", .none)])], by decide⟩

/-- A JSON body with a field that is `null`. -/
theorem roundTrips_iff_leavesRoom_nestedNullPayload : ∃ job,
    validateRequest .jsonOnly .smallest (.model (httpRequest nestedNullPayload)) = .ok job ∧
      RoundTrips .jsonOnly .smallest (httpRequest nestedNullPayload) job ∧
      job.payload.get "json" = some (.dict [(ofString "x", .none)]) := by
  have hok : (validateRequest .jsonOnly .smallest (.model (httpRequest nestedNullPayload))).isOk = true := by
    decide +kernel
  obtain ⟨job, hjob⟩ := exists_eq_ok_of_isOk hok
  have hkind : job.kind = .http := kind_of_validateRequest hjob
  have hroom : LeavesRoom .smallest nestedNullPayload := by decide +kernel
  have hround := (roundTrips_iff_leavesRoom rfl hjob hkind).mpr hroom
  obtain ⟨stored, hget, -, hsame⟩ := hround.body _ rfl (by simp)
  exact ⟨job, hjob, hround, by rw [hget, hsame rfl]⟩

/-- A request that is stored while the SDK is refused the same. -/
theorem not_roundTrips_tightPayload : ¬ ∀ (library : Library) (settings : Settings) (request : EnqueueInput)
    (validated : EnqueueJobRequest) (job : JobInsert), readRequest library request = .ok validated →
      validateRequest library settings request = .ok job → job.kind = .http →
        RoundTrips library settings validated job := by
  intro hall
  obtain ⟨job, hjob, hsize⟩ := stored_tightPayload
  have hkind : job.kind = .http := kind_of_validateRequest hjob
  obtain ⟨sdkJob, hsdk, -⟩ := (hall _ _ _ _ job rfl hjob hkind).sdk
  obtain ⟨validated, stored, haccepts, -⟩ := validateRequest_eq_ok.mp hsdk
  obtain rfl := Except.ok.inj haccepts.read
  have hfits : (textSize job.payload.value : Int) ≤ 1024 := haccepts.payload.2
  omega

end PgRelay
