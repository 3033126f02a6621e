import PgRelay.PyText.JsonText
import PgRelay.Validation
import PgRelay.Schema

/-!
# The request schemas

`schemas/enqueue.py`: what the two models accept, and the dump of an HTTP payload. The invariants of the
models are in their types, so that a model that exists is a valid one.

Of JSON values, a string field takes strings only and a dictionary field dictionaries only. How pydantic
converts an object of another type is left open, but an object that JSON can write is read as a value that is
written alike, as a tuple is read as the list of its items. A missing key is filled with the default, an
unknown one is ignored, and the alias of a field is looked up before its name.
-/

namespace PgRelay

open PyText

/-- `dict[str, Any] | list[Any]`. -/
abbrev JsonBody := {v : PyValue // v.isScalar = false}

/-- The conversions of pydantic, and `str(exc)` of its `ValidationError`. -/
structure Pydantic where
  str : PyValue → Option PyStr
  dict : PyValue → Option PyDict
  container : PyValue → Option JsonBody
  int : PyValue → Option Int
  datetime : PyValue → Option Timestamp
  errorText : PyValue → PyStr
  str_eq : ∀ v, v.isOther = false → str v = v.asStr
  dict_eq : ∀ v, v.isOther = false → dict v = v.asDict
  container_eq : ∀ v, v.isOther = false → container v = if h : v.isScalar = false then some ⟨v, h⟩ else none
  int_eq : ∀ n, int (.int n) = some n
  str_alike : ∀ obj s, str (.other obj) = some s → obj.WrittenAs (.str s)
  dict_alike : ∀ obj d, dict (.other obj) = some d → obj.WrittenAs d.value
  container_alike : ∀ obj body, container (.other obj) = some body → obj.WrittenAs body.val

/-- The conversions of JSON values, and no others. -/
def Pydantic.jsonOnly : Pydantic where
  str := PyValue.asStr
  dict := PyValue.asDict
  container v := if h : v.isScalar = false then some ⟨v, h⟩ else none
  int v :=
    match v with
    | .int n => some n
    | _ => none
  datetime _ := none
  errorText _ := []
  str_eq _ _ := rfl
  dict_eq _ _ := rfl
  container_eq _ _ := rfl
  int_eq _ := rfl
  str_alike _ _ h := by cases h
  dict_alike _ _ h := by cases h
  container_alike _ _ h := by cases h

/-- A field with a default. -/
def withDefault {α : Type} (default : α) (parse : PyValue → Option α) : Option PyValue → Option α
  | none => some default
  | some v => parse v

/-- A field of type `T | None` with the default `None`. -/
def optional {α : Type} (parse : PyValue → Option α) : Option PyValue → Option (Option α)
  | none | some .none => some none
  | some v => (parse v).map some

/-- `method: Literal["GET", "POST", "PUT", "PATCH", "DELETE"]`. -/
inductive HttpMethod
  | get
  | post
  | put
  | patch
  | delete
  deriving DecidableEq, Repr

/-- The text of a method. -/
def HttpMethod.name : HttpMethod → String
  | .get => "GET"
  | .post => "POST"
  | .put => "PUT"
  | .patch => "PATCH"
  | .delete => "DELETE"

/-- The methods. -/
def HttpMethod.all : List HttpMethod := [.get, .post, .put, .patch, .delete]

/-- The method with the text. -/
def parseMethod (v : PyValue) : Option HttpMethod :=
  v.asStr.bind fun s => HttpMethod.all.find? fun method => ofString method.name = s

section Pydantic

variable (pydantic : Pydantic)

/-- A string field with bounds. -/
def Pydantic.boundedStr (low high : ℕ) (v : PyValue) : Option (BoundedStr low high) :=
  (pydantic.str v).bind fun s =>
    if h : low ≤ s.length ∧ s.length ≤ high ∧ Encodable s then some ⟨s, h⟩ else none

/-- An integer field with bounds. -/
def Pydantic.boundedInt (low high : Int) (v : PyValue) : Option (BoundedInt low high) :=
  (pydantic.int v).bind fun n => if h : low ≤ n ∧ n ≤ high then some ⟨n, h⟩ else none

/-- The items of a `dict[str, str]`. -/
def strItems : List (PyStr × PyValue) → Option (List (PyStr × PyStr))
  | [] => some []
  | (key, v) :: items => do
    let s ← pydantic.str v
    let rest ← strItems items
    return (key, s) :: rest

/-- `headers` of a payload: a dictionary of strings. -/
abbrev StrDict := {items : List (PyStr × PyStr) // (items.map Prod.fst).Nodup}

/-- The headers as values. -/
def StrDict.values (headers : StrDict) : List (PyStr × PyValue) :=
  headers.val.map fun header => (header.1, .str header.2)

/-- A field of type `dict[str, str]`. -/
def Pydantic.strDict (v : PyValue) : Option StrDict := do
  let d ← pydantic.dict v
  let items ← strItems pydantic d.items
  if h : (items.map Prod.fst).Nodup then some ⟨items, h⟩ else none

/-! ## HTTP payloads -/

/-- `HttpJobPayload`. -/
structure HttpJobPayload where
  method : HttpMethod
  url : BoundedStr 1 2048
  headers : StrDict
  jsonBody : Option JsonBody
  bodyBase64 : Option (BoundedStr 0 10485760)
  bodyChoice : jsonBody = none ∨ bodyBase64 = none

/-- The value of `json_body`, by its alias or else by its name. -/
def jsonField (payload : PyDict) : Option PyValue := payload.get "json" <|> payload.get "json_body"

/-- `HttpJobPayload.model_validate`; `none` is pydantic's `ValidationError`. -/
def HttpJobPayload.modelValidate (payload : PyDict) : Option HttpJobPayload := do
  let method ← withDefault .post parseMethod (payload.get "method")
  let url ← (payload.get "url").bind (pydantic.boundedStr 1 2048)
  let headers ← withDefault ⟨[], List.nodup_nil⟩ pydantic.strDict (payload.get "headers")
  let jsonBody ← optional pydantic.container (jsonField payload)
  let bodyBase64 ← optional (pydantic.boundedStr 0 10485760) (payload.get "body_base64")
  if h : jsonBody = none ∨ bodyBase64 = none then some ⟨method, url, headers, jsonBody, bodyBase64, h⟩ else none

/-- An item of a dump, left out if there is no value. -/
def dumpItem (key : String) (v : Option PyValue) : List (PyStr × PyValue) := v.toList.map fun v => (ofString key, v)

/-- The items of `model_dump(by_alias=True, exclude_none=True)`. -/
def HttpJobPayload.fields (model : HttpJobPayload) : List (PyStr × PyValue) :=
  [(ofString "method", text model.method.name), (ofString "url", .str model.url),
    (ofString "headers", .dict (StrDict.values model.headers))] ++
    (dumpItem "json" (model.jsonBody.map Subtype.val) ++
      dumpItem "body_base64" (model.bodyBase64.map fun body => .str body.val))

/-- A field is dumped under its key, if at all. -/
theorem keys_dumpItem_sublist (key : String) (v : Option PyValue) :
    ((dumpItem key v).map Prod.fst).Sublist [ofString key] := by
  cases v with
  | none => exact List.nil_sublist _
  | some v => exact .refl _

/-- The fields of a payload have different keys. -/
theorem HttpJobPayload.nodup_fields (model : HttpJobPayload) : (model.fields.map Prod.fst).Nodup := by
  have hkeys : (["method", "url", "headers", "json", "body_base64"].map ofString).Nodup := by decide
  refine List.Nodup.sublist ?_ hkeys
  simp only [HttpJobPayload.fields, List.map_append]
  exact (List.Sublist.refl _).append ((keys_dumpItem_sublist _ _).append (keys_dumpItem_sublist _ _))

/-- `model_dump(by_alias=True, exclude_none=True)`. -/
def HttpJobPayload.modelDump (model : HttpJobPayload) : PyDict := ⟨model.fields, model.nodup_fields⟩

/-! ## Requests -/

/-- `EnqueueJobRequest`. -/
structure EnqueueJobRequest where
  queueName : BoundedStr 1 128
  kind : JobKind
  name : BoundedStr 1 256
  payload : PyDict
  headers : PyDict
  metadata : PyDict
  priority : BoundedInt (-1000) 1000
  maxAttempts : BoundedInt 1 100
  timeoutSeconds : BoundedInt 1 3600
  availableAt : Option Timestamp
  idempotencyKey : Option (BoundedStr 0 512)
  dedupeKey : Option (BoundedStr 0 512)
  traceId : Option (BoundedStr 0 512)

/-- `kind: Literal["http", "handler"]`. -/
def parseKind (v : PyValue) : Option JobKind :=
  if v.asStr = some (ofString "http") then some .http
  else if v.asStr = some (ofString "handler") then some .handler
  else none

/-- The default of `queue_name`. -/
def defaultQueueName : BoundedStr 1 128 := ⟨ofString "default", by decide⟩

/-- The default of `priority`. -/
def defaultPriority : BoundedInt (-1000) 1000 := ⟨0, by decide⟩

/-- The default of `max_attempts`. -/
def defaultMaxAttempts : BoundedInt 1 100 := ⟨10, by decide⟩

/-- The default of `timeout_seconds`. -/
def defaultTimeoutSeconds : BoundedInt 1 3600 := ⟨30, by decide⟩

/-- `EnqueueJobRequest.model_validate`; `.ok none` is pydantic's `ValidationError`. The validator of
`queue_name` raises an error that pydantic lets pass, before the other fields are looked at. -/
def EnqueueJobRequest.modelValidate (request : PyDict) : Except PyException (Option EnqueueJobRequest) := do
  let queueName := withDefault defaultQueueName (pydantic.boundedStr 1 128) (request.get "queue_name")
  if request.get "queue_name" ≠ none then
    if let some value := queueName then validateQueueName value
  return do
    let queueName ← queueName
    let kind ← (request.get "kind").bind parseKind
    let name ← (request.get "name").bind (pydantic.boundedStr 1 256)
    let payload ← withDefault .empty pydantic.dict (request.get "payload")
    let headers ← withDefault .empty pydantic.dict (request.get "headers")
    let metadata ← withDefault .empty pydantic.dict (request.get "metadata")
    let priority ← withDefault defaultPriority (pydantic.boundedInt (-1000) 1000) (request.get "priority")
    let maxAttempts ← withDefault defaultMaxAttempts (pydantic.boundedInt 1 100) (request.get "max_attempts")
    let timeoutSeconds ← withDefault defaultTimeoutSeconds (pydantic.boundedInt 1 3600) (request.get "timeout_seconds")
    let availableAt ← optional pydantic.datetime (request.get "available_at")
    let idempotencyKey ← optional (pydantic.boundedStr 0 512) (request.get "idempotency_key")
    let dedupeKey ← optional (pydantic.boundedStr 0 512) (request.get "dedupe_key")
    let traceId ← optional (pydantic.boundedStr 0 512) (request.get "trace_id")
    return ⟨queueName, kind, name, payload, headers, metadata, priority, maxAttempts, timeoutSeconds, availableAt,
      idempotencyKey, dedupeKey, traceId⟩

end Pydantic

/-! ## What the payload model accepts -/

variable {pydantic : Pydantic}

/-- The fields of a payload are read one by one. -/
structure HttpJobPayload.ReadFrom (pydantic : Pydantic) (payload : PyDict) (model : HttpJobPayload) : Prop where
  method : withDefault .post parseMethod (payload.get "method") = some model.method
  url : (payload.get "url").bind (pydantic.boundedStr 1 2048) = some model.url
  headers : withDefault ⟨[], List.nodup_nil⟩ pydantic.strDict (payload.get "headers") = some model.headers
  jsonBody : optional pydantic.container (jsonField payload) = some model.jsonBody
  bodyBase64 : optional (pydantic.boundedStr 0 10485760) (payload.get "body_base64") = some model.bodyBase64

/-- A payload is read field by field. -/
theorem modelValidate_eq_some {payload : PyDict} {model : HttpJobPayload} :
    HttpJobPayload.modelValidate pydantic payload = some model ↔ model.ReadFrom pydantic payload := by
  unfold HttpJobPayload.modelValidate
  simp only [Option.bind_eq_bind, Option.bind_eq_some_iff]
  constructor
  · rintro ⟨method, hmethod, url, ⟨v, hv, hurl⟩, headers, hheaders, jsonBody, hjson, bodyBase64, hbody, h⟩
    split_ifs at h
    obtain rfl := Option.some.inj h
    exact ⟨hmethod, Option.bind_eq_some_iff.mpr ⟨v, hv, hurl⟩, hheaders, hjson, hbody⟩
  · rintro ⟨hmethod, hurl, hheaders, hjson, hbody⟩
    obtain ⟨v, hv, hurl⟩ := Option.bind_eq_some_iff.mp hurl
    refine ⟨_, hmethod, _, ⟨v, hv, hurl⟩, _, hheaders, _, hjson, _, hbody, ?_⟩
    rw [dif_pos model.bodyChoice]

/-- A string within the bounds is read as it is. -/
theorem boundedStr_str {low high : ℕ} (s : BoundedStr low high) :
    pydantic.boundedStr low high (.str s.val) = some s := by
  have hstr : pydantic.str (.str s.val) = some s.val := pydantic.str_eq _ rfl
  rw [Pydantic.boundedStr, hstr, Option.bind_some, dif_pos s.property]

/-- Strings are read as they are. -/
theorem strItems_values (items : List (PyStr × PyStr)) :
    strItems pydantic (items.map fun header => (header.1, .str header.2)) = some items := by
  induction items with
  | nil => rfl
  | cons header items ih =>
    have hstr : pydantic.str (.str header.2) = some header.2 := pydantic.str_eq _ rfl
    simp [strItems, hstr, ih]

/-- The values of headers have the keys of the headers. -/
theorem keys_values (headers : StrDict) : (StrDict.values headers).map Prod.fst = headers.val.map Prod.fst := by
  simp [StrDict.values, Function.comp_def]

/-- Headers are read as they are. -/
theorem strDict_values (headers : StrDict) : pydantic.strDict (.dict (StrDict.values headers)) = some headers := by
  have hnodup : ((StrDict.values headers).map Prod.fst).Nodup := by
    rw [keys_values]
    exact headers.property
  have hitems : strItems pydantic (StrDict.values headers) = some headers.val := strItems_values _
  have hdict : pydantic.dict (.dict (StrDict.values headers)) = some ⟨StrDict.values headers, hnodup⟩ :=
    (pydantic.dict_eq _ rfl).trans (dif_pos hnodup)
  simp [Pydantic.strDict, hdict, hitems, headers.property]

/-- A list or a dictionary is a JSON value. -/
theorem isOther_of_container {v : PyValue} (hv : v.isScalar = false) : v.isOther = false := by
  cases v <;> simp [PyValue.isScalar, PyValue.isOther] at hv ⊢

/-- A list or a dictionary is read as it is. -/
theorem container_val (body : JsonBody) : pydantic.container body.val = some body := by
  rw [pydantic.container_eq _ (isOther_of_container body.property), dif_pos body.property]

/-- A value that is not `None` is read as one of the type. -/
theorem optional_some {α : Type} {parse : PyValue → Option α} {v : PyValue} (hv : v ≠ .none) :
    optional parse (some v) = (parse v).map some := by
  cases v <;> first | rfl | exact absurd rfl hv

/-- An optional string within the bounds is read as it is. -/
theorem optional_boundedStr {low high : ℕ} (body : Option (BoundedStr low high)) :
    optional (pydantic.boundedStr low high) (body.map fun body => .str body.val) = some body := by
  cases body with
  | none => rfl
  | some body => rw [Option.map_some, optional_some (by simp), boundedStr_str, Option.map_some]

/-- An optional list or dictionary is read as it is. -/
theorem optional_container (body : Option JsonBody) :
    optional pydantic.container (body.map Subtype.val) = some body := by
  cases body with
  | none => rfl
  | some body =>
    have hbody : body.val ≠ .none := fun h => by
      have hscalar := body.property
      rw [h] at hscalar
      cases hscalar
    rw [Option.map_some, optional_some hbody, container_val, Option.map_some]

/-- Different texts have different characters. -/
@[simp] theorem ofString_inj {s s' : String} : ofString s = ofString s' ↔ s = s' := ofString_injective.eq_iff

/-- A method is read from its name. -/
theorem parseMethod_name (method : HttpMethod) : parseMethod (text method.name) = some method := by
  cases method <;> decide +kernel

/-- A field is found under its key and under no other. -/
theorem lookup_dumpItem (key : String) (v : Option PyValue) (key' : String) :
    lookup (dumpItem key v) key' = if key = key' then v else none := by
  cases v <;> simp [dumpItem, lookup_cons]

/-- The fields of a dump. -/
theorem HttpJobPayload.get_modelDump (model : HttpJobPayload) :
    model.modelDump.get "method" = some (text model.method.name) ∧ model.modelDump.get "url" = some (.str model.url) ∧
      model.modelDump.get "headers" = some (.dict (StrDict.values model.headers)) ∧
      jsonField model.modelDump = model.jsonBody.map Subtype.val ∧
      model.modelDump.get "body_base64" = model.bodyBase64.map fun body => .str body.val := by
  have hget (key : String) : model.modelDump.get key = lookup model.fields key := rfl
  simp only [jsonField, hget, HttpJobPayload.fields, lookup_append, lookup_cons, lookup_dumpItem, lookup_nil,
    ofString_inj]
  simp

/-- A dumped payload has its JSON body under `json`. -/
theorem HttpJobPayload.get_json_modelDump (model : HttpJobPayload) :
    model.modelDump.get "json" = model.jsonBody.map Subtype.val := by
  have hget : model.modelDump.get "json" = lookup model.fields "json" := rfl
  simp only [hget, HttpJobPayload.fields, lookup_append, lookup_cons, lookup_dumpItem, lookup_nil, ofString_inj]
  simp

/-- A dump validates to the model it is the dump of. -/
theorem HttpJobPayload.modelValidate_modelDump (model : HttpJobPayload) :
    HttpJobPayload.modelValidate pydantic model.modelDump = some model := by
  obtain ⟨hmethod, hurl, hheaders, hjson, hbody⟩ := model.get_modelDump
  refine modelValidate_eq_some.mpr ⟨?_, ?_, ?_, ?_, ?_⟩
  · rw [hmethod]
    exact parseMethod_name _
  · rw [hurl]
    exact boundedStr_str _
  · rw [hheaders]
    exact strDict_values _
  · rw [hjson]
    exact optional_container _
  · rw [hbody]
    exact optional_boundedStr _

/-! ## What was read of a JSON value -/

/-- What stands in a payload that has a text has one itself, one level down. -/
theorem dumpable_get {levels : ℕ} {payload : PyDict} (h : Dumpable (levels + 1) payload.value) {key : String}
    {v : PyValue} (hget : payload.get key = some v) : Dumpable levels v :=
  (dumpable_dict.mp h _ ((lookup_eq_some payload.nodup).mp hget)).2

/-- The JSON body of a payload that has a text has one. -/
theorem dumpable_jsonField {levels : ℕ} {payload : PyDict} (h : Dumpable (levels + 1) payload.value) {v : PyValue}
    (hget : jsonField payload = some v) : Dumpable levels v := by
  cases hjson : payload.get "json" with
  | none =>
    have hname : payload.get "json_body" = some v := by simpa [jsonField, hjson] using hget
    exact dumpable_get h hname
  | some w =>
    obtain rfl : w = v := by simpa [jsonField, hjson] using hget
    exact dumpable_get h hjson

/-- Only the name of a method is read as the method. -/
theorem eq_of_parseMethod {v : PyValue} {method : HttpMethod} (h : parseMethod v = some method) :
    v = text method.name := by
  obtain ⟨s, hs, hfind⟩ := Option.bind_eq_some_iff.mp h
  have hname := List.find?_some hfind
  rw [asStr_eq_some.mp hs, text, of_decide_eq_true hname]

/-- What is no JSON value is some other object. -/
theorem isOther_eq_true {v : PyValue} (h : v.isOther = true) : ∃ obj, v = .other obj := by
  cases v with
  | other obj => exact ⟨obj, rfl⟩
  | _ => cases h

/-- The string that is read of a value is written as the value. -/
theorem dumps_of_str {levels : ℕ} {v : PyValue} {s : PyStr} (hv : Dumpable levels v) (h : pydantic.str v = some s) :
    dumps levels (.str s) = dumps levels v := by
  cases hother : v.isOther with
  | false =>
    rw [pydantic.str_eq v hother, asStr_eq_some] at h
    rw [h]
  | true =>
    obtain ⟨obj, rfl⟩ := isOther_eq_true hother
    exact (pydantic.str_alike obj s h).dumps_eq hv

/-- The string of a field with bounds is written as the value it is read of. -/
theorem dumps_of_boundedStr {levels low high : ℕ} {v : PyValue} {s : BoundedStr low high} (hv : Dumpable levels v)
    (h : pydantic.boundedStr low high v = some s) : dumps levels (.str s.val) = dumps levels v := by
  obtain ⟨s', hs', h⟩ := Option.bind_eq_some_iff.mp h
  split_ifs at h
  obtain rfl := Option.some.inj h
  exact dumps_of_str hv hs'

/-- The list or the dictionary that is read of a value is written as the value. -/
theorem dumps_of_container {levels : ℕ} {v : PyValue} {body : JsonBody} (hv : Dumpable levels v)
    (h : pydantic.container v = some body) : dumps levels body.val = dumps levels v := by
  cases hother : v.isOther with
  | false =>
    rw [pydantic.container_eq v hother] at h
    split_ifs at h
    obtain rfl := Option.some.inj h
    rfl
  | true =>
    obtain ⟨obj, rfl⟩ := isOther_eq_true hother
    exact (pydantic.container_alike obj body h).dumps_eq hv

/-- A list or a dictionary is read as it is. -/
theorem eq_of_container {v : PyValue} {body : JsonBody} (hv : v.isOther = false)
    (h : pydantic.container v = some body) : body.val = v := by
  rw [pydantic.container_eq v hv] at h
  split_ifs at h
  obtain rfl := Option.some.inj h
  rfl

/-- The dictionary that is read of a value is written as the value. -/
theorem dumps_of_dict {levels : ℕ} {v : PyValue} {d : PyDict} (hv : Dumpable levels v) (h : pydantic.dict v = some d) :
    dumps levels d.value = dumps levels v := by
  cases hother : v.isOther with
  | false =>
    rw [pydantic.dict_eq v hother, asDict_eq_some] at h
    rw [h]
  | true =>
    obtain ⟨obj, rfl⟩ := isOther_eq_true hother
    exact (pydantic.dict_alike obj d h).dumps_eq hv

/-- Strings that are read from the items of a dictionary are written like these. -/
theorem dumpEntries_of_strItems {levels : ℕ} {items : List (PyStr × PyValue)} {headers : List (PyStr × PyStr)}
    (hitems : ∀ item ∈ items, Dumpable levels item.2) (h : strItems pydantic items = some headers) :
    dumpEntries levels (headers.map fun header => (header.1, .str header.2)) = dumpEntries levels items := by
  induction items generalizing headers with
  | nil =>
    obtain rfl : [] = headers := by simpa [strItems] using h
    rfl
  | cons item items ih =>
    obtain ⟨hhead, htail⟩ := List.forall_mem_cons.mp hitems
    obtain ⟨key, v⟩ := item
    simp only [strItems, Option.bind_eq_bind, Option.bind_eq_some_iff] at h
    obtain ⟨s, hs, rest, hrest, h⟩ := h
    obtain rfl : (key, s) :: rest = headers := by simpa using h
    rw [List.map_cons, dumpEntries, dumpEntries, ih htail hrest, dumps_of_str hhead hs]

/-- Headers are written as the value they are read of. -/
theorem dumps_of_strDict {levels : ℕ} {v : PyValue} {headers : StrDict} (hv : Dumpable levels v)
    (h : pydantic.strDict v = some headers) : dumps levels (.dict (StrDict.values headers)) = dumps levels v := by
  simp only [Pydantic.strDict, Option.bind_eq_bind, Option.bind_eq_some_iff] at h
  obtain ⟨d, hd, items, hitems, h⟩ := h
  split_ifs at h
  obtain rfl := Option.some.inj h
  have hread := dumps_of_dict hv hd
  have hdict := (dumpable_of_dumps_eq hread hv).1
  rw [← hread]
  cases levels with
  | zero => exact absurd hdict not_dumpable_dict_zero
  | succ levels =>
    have hentries := dumpEntries_of_strItems (fun item hitem => (dumpable_dict.mp hdict item hitem).2) hitems
    simp only [PyDict.value, StrDict.values, dumps, enterLevel, hentries]

/-- A field without a value, or the value that was parsed. -/
theorem eq_of_optional {α : Type} {parse : PyValue → Option α} {v : Option PyValue} {a : Option α}
    (h : optional parse v = some a) :
    a = none ∧ (v = none ∨ v = some .none) ∨ ∃ w b, v = some w ∧ w.isNone = false ∧ a = some b ∧ parse w = some b := by
  unfold optional at h
  split at h
  · exact .inl ⟨(Option.some.inj h).symm, .inl rfl⟩
  · exact .inl ⟨(Option.some.inj h).symm, .inr rfl⟩
  · rename_i w hw
    obtain ⟨b, hb, rfl⟩ := Option.map_eq_some_iff.mp h
    refine .inr ⟨w, b, rfl, ?_, rfl, hb⟩
    cases w <;> first | rfl | exact absurd rfl hw

end PgRelay
