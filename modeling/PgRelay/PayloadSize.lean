import PgRelay.EnqueueService

/-!
# The size of a stored payload

The size of an HTTP payload is checked before the payload is normalised, and the normalised one is stored.
Normalising leaves out unknown keys and keys without a value, writes `json` for `json_body`, and adds the
default of a missing `method` or `headers`. So the stored payload can be larger than the one that was
measured, by 29 bytes at most.

The headers and the metadata of a request are stored as they were measured.
-/

namespace PgRelay

open PyText

variable {library : Library} {settings : Settings}

/-! ## Sizes of dictionaries -/

/-- The bytes of an item with its separator. -/
def itemBytes (item : PyStr × PyValue) : ℕ := entrySize item + 1

/-- Values that are written alike make items of the same size. -/
theorem itemBytes_of_dumps_eq {levels : ℕ} {v w : PyValue} (h : dumps levels w = dumps levels v)
    (hv : Dumpable levels v) (key : PyStr) : itemBytes (key, w) = itemBytes (key, v) := by
  have hsize := (dumpable_of_dumps_eq h hv).2
  simp only [itemBytes, entrySize, hsize]

/-- A dictionary with items has their bytes, a comma for each included, and one more. -/
theorem textSize_dict {items : List (PyStr × PyValue)} (hne : items ≠ []) :
    textSize (.dict items) = (items.map itemBytes).sum + 1 := by
  have hlength : 0 < items.length := List.length_pos_iff.mpr hne
  have hsum : (items.map itemBytes).sum = (items.map entrySize).sum + items.length := by
    change (items.map fun item => entrySize item + 1).sum = _
    rw [List.sum_map_add, List.map_const', List.sum_replicate, Nat.nsmul_eq_mul, Nat.mul_one]
  rw [textSize, entrySizes_eq_map, joinSize, hsum, List.length_map]
  omega

/-- Of the keys in a list at most one is the given one. -/
theorem sum_indicator {keys : List String} (hkeys : keys.Nodup) (k : PyStr) (n : ℕ) :
    (keys.map fun key => if k = ofString key then n else 0).sum = if k ∈ keys.map ofString then n else 0 := by
  induction keys with
  | nil => simp
  | cons key keys ih =>
    obtain ⟨hfresh, hkeys⟩ := List.nodup_cons.mp hkeys
    rw [List.map_cons, List.sum_cons, ih hkeys, List.map_cons]
    by_cases hk : k = ofString key
    · subst hk
      simp [hfresh]
    · simp [hk]

/-- A sum over the items of a dictionary in which only some keys count is a sum over these keys. -/
theorem sum_items_eq {items : List (PyStr × PyValue)} (hnodup : (items.map Prod.fst).Nodup)
    {keys : List String} (hkeys : keys.Nodup) {f : PyStr × PyValue → ℕ}
    (hf : ∀ item ∈ items, item.1 ∉ keys.map ofString → f item = 0) :
    (items.map f).sum = (keys.map fun key => ((lookup items key).map fun v => f (ofString key, v)).getD 0).sum := by
  induction items with
  | nil => simp
  | cons item items ih =>
    obtain ⟨k, v⟩ := item
    obtain ⟨hfresh, hrest⟩ := List.nodup_cons.mp hnodup
    have hih := ih hrest fun item hitem => hf item (List.mem_cons_of_mem _ hitem)
    have hmissing {key : String} (hkey : k = ofString key) : lookup items key = none := by
      cases hlookup : lookup items key with
      | none => rfl
      | some w => exact absurd (List.mem_map.mpr ⟨_, (lookup_eq_some hrest).mp hlookup, hkey.symm⟩) hfresh
    have hsplit (key : String) : ((lookup ((k, v) :: items) key).map fun v => f (ofString key, v)).getD 0 =
        (if k = ofString key then f (k, v) else 0) +
          ((lookup items key).map fun v => f (ofString key, v)).getD 0 := by
      by_cases hkey : k = ofString key
      · simp [lookup_cons, hkey, hmissing hkey]
      · simp [lookup_cons, hkey]
    have hone : (keys.map fun key => if k = ofString key then f (k, v) else 0).sum = f (k, v) := by
      rw [sum_indicator hkeys]
      split_ifs with hk
      · rfl
      · exact (hf (k, v) List.mem_cons_self hk).symm
    simp only [hsplit, List.sum_map_add, hone, List.map_cons, List.sum_cons, hih]

/-! ## Measured and stored payloads -/

/-- The bytes that the defaults of `method` and `headers` add. -/
def addedBytes (payload : PyDict) : ℕ :=
  (if payload.get "method" = none then 16 else 0) + (if payload.get "headers" = none then 13 else 0)

/-- The bytes of an item of a payload that are not stored: all of them for an unknown key, for a body without
a value and for `json_body` beside `json`, and 5 for a `json_body` that is stored under the shorter name. -/
def droppedBytes (payload : PyDict) (item : PyStr × PyValue) : ℕ :=
  if item.1 ∈ ["method", "url", "headers"].map ofString then 0
  else if item.1 ∈ ["json", "body_base64"].map ofString ∧ item.2.isNone = false then 0
  else if item.1 = ofString "json_body" ∧ payload.get "json" = none ∧ item.2.isNone = false then 5
  else itemBytes item

/-- An item is dropped with its bytes or kept. -/
theorem droppedBytes_le (payload : PyDict) (item : PyStr × PyValue) : droppedBytes payload item ≤ itemBytes item := by
  unfold droppedBytes
  split_ifs with _ _ hname
  · exact Nat.zero_le _
  · exact Nat.zero_le _
  · have hquoted : utf8Size (quoted item.1) = 11 := by
      rw [hname.1]
      decide
    rw [itemBytes, entrySize, hquoted]
    omega
  · exact le_rfl

/-- The bytes of an item that are stored. -/
def keptBytes (payload : PyDict) (item : PyStr × PyValue) : ℕ := itemBytes item - droppedBytes payload item

/-- The keys of which something may be stored. -/
def payloadKeys : List String := ["method", "url", "headers", "json", "body_base64", "json_body"]

/-- Nothing is kept of an unknown key. -/
theorem keptBytes_unknown {payload : PyDict} {item : PyStr × PyValue} (h : item.1 ∉ payloadKeys.map ofString) :
    keptBytes payload item = 0 := by
  simp only [payloadKeys, List.map_cons, List.map_nil, List.mem_cons, List.not_mem_nil, or_false, not_or] at h
  simp [keptBytes, droppedBytes, h]

/-- What is stored of the value under a key. -/
def keptUnder (payload : PyDict) (key : String) : ℕ :=
  ((payload.get key).map fun v => keptBytes payload (ofString key, v)).getD 0

/-- What is kept of a payload is kept under the known keys. -/
theorem sum_keptBytes (payload : PyDict) :
    (payload.items.map (keptBytes payload)).sum = (payloadKeys.map (keptUnder payload)).sum :=
  sum_items_eq payload.nodup (by decide) fun _ _ => keptBytes_unknown

/-- A method, a URL and headers are kept if they are there. -/
theorem keptUnder_always {payload : PyDict} {key : String} (hkey : key ∈ ["method", "url", "headers"]) :
    keptUnder payload key = ((payload.get key).map fun v => itemBytes (ofString key, v)).getD 0 := by
  have hmem : ofString key ∈ ["method", "url", "headers"].map ofString := List.mem_map_of_mem hkey
  simp only [keptUnder, keptBytes, droppedBytes, if_pos hmem, Nat.sub_zero]

/-- A body is kept unless it is `None`. -/
theorem keptUnder_body {payload : PyDict} {key : String} (hkey : key ∈ ["json", "body_base64"]) :
    keptUnder payload key =
      ((payload.get key).map fun v => if v.isNone then 0 else itemBytes (ofString key, v)).getD 0 := by
  unfold keptUnder
  cases payload.get key with
  | none => rfl
  | some v => rcases List.mem_pair.mp hkey with rfl | rfl <;> cases hv : v.isNone <;> simp [keptBytes, droppedBytes, hv]

/-- The key `json_body` has five bytes more than `json`. -/
theorem itemBytes_json_body (v : PyValue) :
    itemBytes (ofString "json_body", v) = itemBytes (ofString "json", v) + 5 := by
  have hlong : utf8Size (quoted (ofString "json_body")) = 11 := by decide
  have hshort : utf8Size (quoted (ofString "json")) = 6 := by decide
  simp only [itemBytes, entrySize, hlong, hshort]
  omega

/-- `json_body` is kept as `json` if there is no `json`. -/
theorem keptUnder_json_body (payload : PyDict) : keptUnder payload "json_body" =
    if payload.get "json" = none then
      ((payload.get "json_body").map fun v => if v.isNone then 0 else itemBytes (ofString "json", v)).getD 0
    else 0 := by
  unfold keptUnder
  cases payload.get "json_body" with
  | none => simp
  | some v =>
    by_cases hjson : payload.get "json" = none
    · cases hv : v.isNone <;> simp [keptBytes, droppedBytes, hjson, hv, itemBytes_json_body]
    · simp [keptBytes, droppedBytes, hjson]

variable {payload : PyDict} {model : HttpJobPayload} {levels : ℕ}

/-- The bytes of an item that may be missing. -/
def optionalBytes (key : String) (v : Option PyValue) : ℕ := (v.map fun v => itemBytes (ofString key, v)).getD 0

/-- What is stored of a method is what the dump has, but for the default. -/
theorem keptUnder_method (h : model.ReadFrom library.pydantic payload) :
    keptUnder payload "method" + (if payload.get "method" = none then 16 else 0) =
      itemBytes (ofString "method", text model.method.name) := by
  have hmethod := h.method
  rw [keptUnder_always (by simp)]
  cases hget : payload.get "method" with
  | none =>
    rw [hget] at hmethod
    have hpost : model.method = .post := (Option.some.inj hmethod).symm
    rw [hpost]
    decide
  | some v =>
    rw [hget] at hmethod
    obtain rfl := eq_of_parseMethod hmethod
    simp

/-- The URL is kept as it is read. -/
theorem keptUnder_url (hdump : Dumpable (levels + 1) payload.value) (h : model.ReadFrom library.pydantic payload) :
    keptUnder payload "url" = itemBytes (ofString "url", .str model.url) := by
  obtain ⟨v, hget, hurl⟩ := Option.bind_eq_some_iff.mp h.url
  have hv := dumpable_get hdump hget
  rw [keptUnder_always (by simp), hget, itemBytes_of_dumps_eq (dumps_of_boundedStr hv hurl) hv]
  rfl

/-- What is stored of the headers is what the dump has, but for the default. -/
theorem keptUnder_headers (hdump : Dumpable (levels + 1) payload.value) (h : model.ReadFrom library.pydantic payload) :
    keptUnder payload "headers" + (if payload.get "headers" = none then 13 else 0) =
      itemBytes (ofString "headers", .dict (StrDict.values model.headers)) := by
  have hheaders := h.headers
  rw [keptUnder_always (by simp)]
  cases hget : payload.get "headers" with
  | none =>
    rw [hget] at hheaders
    have hempty : model.headers = ⟨[], List.nodup_nil⟩ := (Option.some.inj hheaders).symm
    rw [hempty]
    decide
  | some v =>
    rw [hget] at hheaders
    have hv := dumpable_get hdump hget
    simp [itemBytes_of_dumps_eq (dumps_of_strDict hv hheaders) hv]

/-- The JSON body is stored under one of its two names, if it is not null. -/
theorem keptUnder_jsonBody (hdump : Dumpable (levels + 1) payload.value) (h : model.ReadFrom library.pydantic payload) :
    keptUnder payload "json" + keptUnder payload "json_body" =
      optionalBytes "json" (model.jsonBody.map Subtype.val) := by
  rw [keptUnder_body (by simp), keptUnder_json_body]
  rcases eq_of_optional h.jsonBody with ⟨hnone, hget⟩ | ⟨v, body, hget, hv, hbody, hparse⟩
  · cases hjson : payload.get "json" with
    | none =>
      have hname : payload.get "json_body" = none ∨ payload.get "json_body" = some .none := by
        simpa [jsonField, hjson] using hget
      rcases hname with hname | hname <;> simp [hname, hnone, optionalBytes, PyValue.isNone]
    | some v =>
      obtain rfl : v = .none := by simpa [jsonField, hjson] using hget
      simp [hnone, optionalBytes, PyValue.isNone]
  · cases hjson : payload.get "json" with
    | none =>
      have hname : payload.get "json_body" = some v := by simpa [jsonField, hjson] using hget
      have hdumpable := dumpable_get hdump hname
      simp [hname, hbody, hv, optionalBytes, itemBytes_of_dumps_eq (dumps_of_container hdumpable hparse) hdumpable]
    | some w =>
      obtain rfl : w = v := by simpa [jsonField, hjson] using hget
      have hdumpable := dumpable_get hdump hjson
      simp [hbody, hv, optionalBytes, itemBytes_of_dumps_eq (dumps_of_container hdumpable hparse) hdumpable]

/-- The Base64 body is kept as it is read. -/
theorem keptUnder_bodyBase64 (hdump : Dumpable (levels + 1) payload.value)
    (h : model.ReadFrom library.pydantic payload) :
    keptUnder payload "body_base64" = optionalBytes "body_base64" (model.bodyBase64.map fun body => .str body.val) := by
  rw [keptUnder_body (by simp)]
  rcases eq_of_optional h.bodyBase64 with ⟨hnone, hget | hget⟩ | ⟨v, body, hget, hv, hbody, hparse⟩
  · simp [hget, hnone, optionalBytes]
  · simp [hget, hnone, optionalBytes, PyValue.isNone]
  · have hdumpable := dumpable_get hdump hget
    simp [hget, hbody, hv, optionalBytes, itemBytes_of_dumps_eq (dumps_of_boundedStr hdumpable hparse) hdumpable]

/-- The bytes of an optional field. -/
theorem sum_dumpItem (key : String) (v : Option PyValue) :
    ((dumpItem key v).map itemBytes).sum = optionalBytes key v := by
  cases v <;> simp [dumpItem, optionalBytes]

/-- The size of the stored payload is the measured one with what is added and without what is dropped. -/
theorem textSize_modelDump (hdump : Dumpable (levels + 1) payload.value) (h : model.ReadFrom library.pydantic payload) :
    textSize model.modelDump.value + (payload.items.map (droppedBytes payload)).sum =
      textSize payload.value + addedBytes payload := by
  have hne : payload.items ≠ [] := by
    intro hempty
    obtain ⟨v, hget, -⟩ := Option.bind_eq_some_iff.mp h.url
    simp [PyDict.get, hempty] at hget
  have hsplit : (payload.items.map itemBytes).sum =
      (payload.items.map (keptBytes payload)).sum + (payload.items.map (droppedBytes payload)).sum := by
    rw [← List.sum_map_add]
    refine congrArg List.sum (List.map_congr_left fun item _ => ?_)
    exact (Nat.sub_add_cancel (droppedBytes_le payload item)).symm
  have hfields : model.fields ≠ [] := by simp [HttpJobPayload.fields]
  have hdumped : textSize model.modelDump.value = (model.fields.map itemBytes).sum + 1 := textSize_dict hfields
  have hmethod := keptUnder_method h
  have hurl := keptUnder_url hdump h
  have hheaders := keptUnder_headers hdump h
  have hjson := keptUnder_jsonBody hdump h
  have hbody := keptUnder_bodyBase64 hdump h
  rw [hdumped, PyDict.value, textSize_dict hne, hsplit, sum_keptBytes]
  simp only [payloadKeys, HttpJobPayload.fields, List.map_append, List.sum_append, List.map_cons, List.map_nil,
    List.sum_cons, List.sum_nil, sum_dumpItem, addedBytes]
  omega

/-- A dump has a text if the payload it was read from has one, on as many levels; the dump has always two, for
its headers. -/
theorem dumpable_modelDump (hdump : Dumpable (levels + 2) payload.value) (h : model.ReadFrom library.pydantic payload) :
    Dumpable (levels + 2) model.modelDump.value := by
  have hheaders : Dumpable (levels + 1) (.dict (StrDict.values model.headers)) := by
    have hread := h.headers
    cases hget : payload.get "headers" with
    | none =>
      rw [hget] at hread
      have hempty : model.headers = ⟨[], List.nodup_nil⟩ := (Option.some.inj hread).symm
      rw [hempty]
      exact dumpable_dict.mpr (by simp [StrDict.values])
    | some v =>
      rw [hget] at hread
      have hv := dumpable_get hdump hget
      exact (dumpable_of_dumps_eq (dumps_of_strDict hv hread) hv).1
  have hjson (body : JsonBody) (hbody : model.jsonBody = some body) : Dumpable (levels + 1) body.val := by
    rcases eq_of_optional h.jsonBody with ⟨hnone, -⟩ | ⟨v, body', hget, -, hbody', hparse⟩
    · cases hnone.symm.trans hbody
    · obtain rfl := Option.some.inj (hbody.symm.trans hbody')
      have hv := dumpable_jsonField hdump hget
      exact (dumpable_of_dumps_eq (dumps_of_container hv hparse) hv).1
  refine dumpable_dict.mpr fun item hitem => ?_
  simp only [HttpJobPayload.modelDump, HttpJobPayload.fields, dumpItem, List.mem_append, List.mem_cons,
    List.not_mem_nil, or_false, List.mem_map, Option.mem_toList, Option.map_eq_some_iff] at hitem
  rcases hitem with (rfl | rfl | rfl) | ⟨v, ⟨body, hbody, rfl⟩, rfl⟩ | ⟨v, ⟨body, hbody, rfl⟩, rfl⟩
  · exact ⟨encodable_ofString _, .str (encodable_ofString _)⟩
  · exact ⟨encodable_ofString _, .str model.url.property.2.2⟩
  · exact ⟨encodable_ofString _, hheaders⟩
  · exact ⟨encodable_ofString _, hjson body hbody⟩
  · exact ⟨encodable_ofString _, .str body.property.2.2⟩

/-! ## The limits -/

/-- The payload, the headers and the metadata that are stored keep to the limits. -/
structure StoredWithinLimits (library : Library) (settings : Settings) (job : JobInsert) : Prop where
  payload : Fits library.levels job.payload.value settings.maxPayloadBytes
  headers : Fits library.levels job.headers.value settings.maxHeadersBytes
  metadata : Fits library.levels job.metadata.value settings.maxMetadataBytes

/-- The room that an HTTP payload leaves for its defaults: with what normalising adds to it and without what it
drops, it keeps to the limit. -/
def LeavesRoom (settings : Settings) (payload : PyDict) : Prop :=
  ((textSize payload.value + addedBytes payload : ℕ) : Int) ≤
    settings.maxPayloadBytes.val + (payload.items.map (droppedBytes payload)).sum

instance (settings : Settings) (payload : PyDict) : Decidable (LeavesRoom settings payload) :=
  inferInstanceAs (Decidable (_ ≤ _))

/-- An accepted payload is stored within the limit exactly if it leaves room for its defaults. -/
theorem fits_modelDump_iff (hdump : Dumpable library.levels payload.value)
    (h : model.ReadFrom library.pydantic payload) :
    Fits library.levels model.modelDump.value settings.maxPayloadBytes ↔ LeavesRoom settings payload := by
  obtain ⟨levels, hlevels⟩ := Nat.exists_eq_add_of_le' library.two_le_levels
  rw [hlevels] at hdump ⊢
  have hsize := textSize_modelDump hdump h
  rw [Fits, and_iff_right (dumpable_modelDump hdump h), LeavesRoom, ← hsize]
  push_cast
  omega

/-- What an accepted request stores keeps to the limits exactly if it is a handler job or its payload leaves
room for its defaults. -/
theorem storedWithinLimits_iff {request : EnqueueInput} {job : JobInsert}
    (h : validateRequest library settings request = .ok job) : StoredWithinLimits library settings job ↔
      ∀ validated, readRequest library request = .ok validated → validated.kind = .http →
        LeavesRoom settings validated.payload := by
  obtain ⟨validated, stored, haccepts, rfl⟩ := validateRequest_eq_ok.mp h
  have hstored := haccepts.stored
  have hroom : Fits library.levels stored.value settings.maxPayloadBytes ↔
      (validated.kind = .http → LeavesRoom settings validated.payload) := by
    unfold storedPayload at hstored
    cases hkind : validated.kind with
    | handler =>
      rw [hkind] at hstored
      obtain rfl : validated.payload = stored := Except.ok.inj hstored
      simpa using haccepts.payload
    | http =>
      rw [hkind] at hstored
      obtain ⟨model, hmodel, -, rfl⟩ := validateHttpPayload_eq_ok.mp hstored
      simpa using fits_modelDump_iff haccepts.payload.1 (modelValidate_eq_some.mp hmodel)
  constructor
  · intro hlimits validated' hread
    obtain rfl := Except.ok.inj (haccepts.read.symm.trans hread)
    exact hroom.mp hlimits.payload
  · intro hleaves
    exact ⟨hroom.mpr (hleaves validated haccepts.read), haccepts.headers, haccepts.metadata⟩

/-- A payload that names all that would be added. -/
def completePayload : PyDict :=
  ⟨[(ofString "method", text "PUT"), (ofString "url", text "http://a/"), (ofString "headers", .dict [])], by decide⟩

/-- A payload that has a method and headers already. -/
theorem storedWithinLimits_iff_completePayload : ∃ job,
    validateRequest .jsonOnly .smallest (.model (httpRequest completePayload)) = .ok job ∧
      StoredWithinLimits .jsonOnly .smallest job := by
  have hok : (validateRequest .jsonOnly .smallest (.model (httpRequest completePayload))).isOk = true := by
    decide +kernel
  obtain ⟨job, hjob⟩ := exists_eq_ok_of_isOk hok
  refine ⟨job, hjob, (storedWithinLimits_iff hjob).mpr fun validated hread _ => ?_⟩
  obtain rfl := Except.ok.inj hread
  have hroom : LeavesRoom .smallest completePayload := by decide +kernel
  exact hroom

/-- A payload of 1024 bytes with neither a method nor headers. -/
def tightPayload : PyDict :=
  ⟨[(ofString "url", .str (ofString "http://a/" ++ List.replicate 1005 (char 'a')))], by decide⟩

/-- Normalising adds 29 bytes to it. -/
theorem stored_tightPayload : ∃ job, validateRequest .jsonOnly .smallest (.model (httpRequest tightPayload)) = .ok job ∧
    textSize job.payload.value = 1053 := by
  have hstored : ((validateRequest .jsonOnly .smallest (.model (httpRequest tightPayload))).toOption.map fun job =>
      textSize job.payload.value) = some 1053 := by
    decide +kernel
  cases hjob : validateRequest .jsonOnly .smallest (.model (httpRequest tightPayload)) with
  | error exc => simp [hjob, Except.toOption] at hstored
  | ok job => exact ⟨job, rfl, by simpa [hjob, Except.toOption] using hstored⟩

/-- A request that is stored with a payload over the limit. -/
theorem not_storedWithinLimits_tightPayload : ¬ ∀ (library : Library) (settings : Settings) (request : EnqueueInput)
    (job : JobInsert), validateRequest library settings request = .ok job →
      StoredWithinLimits library settings job := by
  intro hall
  obtain ⟨job, hjob, hsize⟩ := stored_tightPayload
  have hfits : (textSize job.payload.value : Int) ≤ 1024 := (hall _ _ _ job hjob).payload.2
  omega

end PgRelay
