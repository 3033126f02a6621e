import PgRelay.HttpExecutor
import Mathlib

/-!
# Production settings

What the start-up check makes sure of, and what follows for the API and for the targets of HTTP jobs. The tokens
and the hosts are lists in plain text. A header is compared with every token of a set, in an order that is that
of the hash values, and each comparison encodes the texts first.
-/

namespace PgRelay

open PyText

/-! ## The start-up check -/

/-- `DEFAULT_API_TOKEN`. -/
def defaultApiToken : PyStr := ofString "dev-token-change-me"

/-- `validate_runtime`. -/
def Settings.validateRuntime (lower : StrLower) (settings : Settings) : Except PyException Unit :=
  let tokens := settings.getApiTokens
  let readOnlyTokens := settings.getReadOnlyApiTokens
  if settings.env = .prod ∧ tokens = ∅ then
    .error (valueError (ofString "PGRELAY_API_AUTH_TOKENS is required when PGRELAY_ENV=prod"))
  else if settings.env = .prod ∧ (defaultApiToken ∈ tokens ∨ defaultApiToken ∈ readOnlyTokens) then
    .error (valueError (ofString "Default dev API token is forbidden when PGRELAY_ENV=prod"))
  else if settings.env = .prod ∧ settings.getAllowedHosts lower = ∅ then
    .error (valueError (ofString "PGRELAY_HTTP_ALLOWED_HOSTS is required when PGRELAY_ENV=prod"))
  else if settings.dbPoolSize.val + settings.dbMaxOverflow.val < settings.workerConcurrency.val + 2 then
    .error (valueError (ofString "db_pool_size + db_max_overflow must be at least worker_concurrency + 2"))
  else .ok ()

/-! ## Bearer tokens -/

/-- What ends a request: an `HTTPException` with its error, or another exception. -/
inductive ApiError
  | http (statusCode : ℕ) (code message : String)
  | raised (exc : PyException)

/-- `raise_unauthorized`. -/
def raiseUnauthorized (message : String) : ApiError := .http 401 "unauthorized" message

/-- `raise_forbidden`. -/
def raiseForbidden (message : String) : ApiError := .http 403 "forbidden" message

/-- The order in which a set is iterated over. -/
structure SetOrder where
  list : Finset PyStr → List PyStr
  mem_list : ∀ {tokens token}, token ∈ list tokens ↔ token ∈ tokens

/-- `f"Bearer {token}"`. -/
def bearer (token : PyStr) : PyStr := ofString "Bearer " ++ token

section Auth

variable (library : Library) (order : SetOrder) (settings : Settings)

/-- `str.encode()`. -/
def encode (s : PyStr) : Except PyException ByteArray :=
  match encodeUtf8 s with
  | none => .error (unicodeEncodeError (library.encodeErrorText (.str s)))
  | some bytes => .ok bytes

/-- The loop of `check_bearer_token`. -/
def compareTokens (authorizationBytes : ByteArray) : List PyStr → Except PyException Bool
  | [] => .ok false
  | token :: tokens => do
    let expectedBytes ← encode library (bearer token)
    if authorizationBytes = expectedBytes then return true
    compareTokens authorizationBytes tokens

/-- `check_bearer_token`. -/
def checkBearerToken (authorization : PyStr) (tokens : Finset PyStr) : Except PyException Bool := do
  let authorizationBytes ← encode library authorization
  compareTokens library authorizationBytes (order.list tokens)

/-- `require_api_token`. -/
def requireApiToken (authorization : Option PyStr) : Except ApiError Unit :=
  let tokens := settings.getApiTokens ∪ settings.getReadOnlyApiTokens
  if tokens = ∅ then .ok ()
  else
    match authorization with
    | none => .error (raiseUnauthorized "Missing bearer token")
    | some authorization =>
      match checkBearerToken library order authorization tokens with
      | .error exc => .error (.raised exc)
      | .ok true => .ok ()
      | .ok false => .error (raiseUnauthorized "Invalid bearer token")

/-- `require_api_write_token`. -/
def requireApiWriteToken (authorization : Option PyStr) : Except ApiError Unit :=
  let readTokens := settings.getApiTokens ∪ settings.getReadOnlyApiTokens
  let writeTokens := settings.getApiTokens
  if readTokens = ∅ then .ok ()
  else
    match authorization with
    | none => .error (raiseUnauthorized "Missing bearer token")
    | some authorization =>
      match checkBearerToken library order authorization writeTokens with
      | .error exc => .error (.raised exc)
      | .ok true => .ok ()
      | .ok false =>
        match checkBearerToken library order authorization readTokens with
        | .error exc => .error (.raised exc)
        | .ok true => .error (raiseForbidden "Bearer token is read-only")
        | .ok false => .error (raiseUnauthorized "Invalid bearer token")

end Auth

/-! ## What production settings promise -/

/-- The token is a segment of a comma-separated text, trimmed and not empty. -/
def Segment (text token : PyStr) : Prop := token ≠ [] ∧ ∃ part ∈ splitComma text, strip part = token

/-- The header carries a token of a kind. -/
def Bears (tokens : PyStr → Prop) (authorization : Option PyStr) : Prop :=
  ∃ token, tokens token ∧ authorization = some (bearer token)

/-- The tokens that may write. -/
def Settings.Writes (settings : Settings) (token : PyStr) : Prop := Segment settings.apiAuthTokens token

/-- The tokens that may read. -/
def Settings.Reads (settings : Settings) (token : PyStr) : Prop :=
  Segment settings.apiAuthTokens token ∨ Segment settings.apiReadOnlyAuthTokens token

/-- The host of a URL is in the allow-list. -/
def HostListed (library : Library) (settings : Settings) (url : PyStr) : Prop :=
  ∃ hostname, extractUrlHostname library.tables url = .ok hostname ∧
    library.tables.lower.lower hostname ∈ settings.getAllowedHosts library.tables.lower

/-- The API lets the listed tokens read and write and answers everything else with an error of its own, in whatever
order the tokens are compared; and no job goes to a host that is not listed. -/
structure FailsClosed (uuid : UuidText) (library : Library) (settings : Settings) (authorization : Option PyStr) :
    Prop where
  read : ∀ order, requireApiToken library order settings authorization = .ok () ↔ Bears settings.Reads authorization
  write : ∀ order, requireApiWriteToken library order settings authorization = .ok () ↔
    Bears settings.Writes authorization
  writeReads : ∀ order order', requireApiWriteToken library order settings authorization = .ok () →
    requireApiToken library order' settings authorization = .ok ()
  weak : authorization = none ∨ authorization = some (bearer []) ∨ authorization = some (bearer defaultApiToken) →
    ∀ order, requireApiToken library order settings authorization ≠ .ok () ∧
      requireApiWriteToken library order settings authorization ≠ .ok ()
  unread : ¬ Bears settings.Reads authorization → ∀ order, ∃ message,
    requireApiToken library order settings authorization = .error (raiseUnauthorized message)
  readOnly : Bears settings.Reads authorization → ¬ Bears settings.Writes authorization → ∀ order, ∃ message,
    requireApiWriteToken library order settings authorization = .error (raiseForbidden message)
  unwritten : ¬ Bears settings.Reads authorization → ∀ order, ∃ message,
    requireApiWriteToken library order settings authorization = .error (raiseUnauthorized message)
  enqueued : ∀ request inserted user, validateRequest library settings request = .ok inserted →
    inserted.kind = .http → RequestPayload library request user → HostListed library settings user.url
  sent : ∀ job request, prepareRequest uuid library settings job = .ok request →
    HostListed library settings request.url

/-- The header, if there is one, and all tokens can be encoded. -/
def CanBeCompared (settings : Settings) (authorization : Option PyStr) : Prop :=
  ∀ header ∈ authorization, Encodable header ∧ ∀ token, settings.Reads token → Encodable token

variable {library : Library} {order : SetOrder} {settings : Settings} {authorization : Option PyStr}

/-! ## Tokens -/

/-- The tokens read from a setting are the non-empty stripped parts of its text. -/
theorem mem_listedParts {text token : PyStr} : token ∈ (listedParts text).toFinset ↔ Segment text token := by
  simp [listedParts, Segment, and_comm]

/-- The tokens that may read are those of both settings. -/
theorem mem_readTokens {token : PyStr} :
    token ∈ settings.getApiTokens ∪ settings.getReadOnlyApiTokens ↔ settings.Reads token := by
  rw [Finset.mem_union, Settings.getApiTokens, Settings.getReadOnlyApiTokens, mem_listedParts, mem_listedParts]
  rfl

/-- A header can be encoded exactly if its token can. -/
theorem encodable_bearer {token : PyStr} : Encodable (bearer token) ↔ Encodable token := by
  rw [bearer, encodable_append]
  exact and_iff_right (encodable_ofString _)

/-- Different tokens have different headers. -/
theorem bearer_injective : Function.Injective bearer := fun _ _ h => List.append_cancel_left h

/-- A header bears one of the tokens if and only if its own token is one of them. -/
theorem bears_some {tokens : PyStr → Prop} {token : PyStr} : Bears tokens (some (bearer token)) ↔ tokens token := by
  constructor
  · rintro ⟨token', htoken, heq⟩
    rwa [bearer_injective (Option.some.inj heq)]
  · exact fun h => ⟨token, h, rfl⟩

/-- `str.encode` returns the UTF-8 bytes. -/
theorem encode_eq_ok {s : PyStr} {bytes : ByteArray} : encode library s = .ok bytes ↔ encodeUtf8 s = some bytes := by
  unfold encode
  cases encodeUtf8 s <;> simp

/-- Only a surrogate keeps a text from having UTF-8 bytes. -/
theorem encodeUtf8_eq_none {s : PyStr} : encodeUtf8 s = none ↔ ¬ Encodable s := by
  simp [encodeUtf8]

/-- `str.encode` raises for every text that has a surrogate. -/
theorem encode_eq_error (library : Library) {s : PyStr} (h : ¬ Encodable s) : ∃ exc, encode library s = .error exc := by
  rw [encode, encodeUtf8_eq_none.mpr h]
  exact ⟨_, rfl⟩

/-- A text with UTF-8 bytes has no surrogate. -/
theorem encodable_of_encodeUtf8 {s : PyStr} {bytes : ByteArray} (h : encodeUtf8 s = some bytes) : Encodable s := by
  by_contra hnot
  cases h.symm.trans (encodeUtf8_eq_none.mpr hnot)

/-- A comparison succeeds only for a header that carries one of the tokens. -/
theorem compareTokens_sound {header : PyStr} {bytes : ByteArray} (hheader : encodeUtf8 header = some bytes)
    {tokens : List PyStr} (h : compareTokens library bytes tokens = .ok true) :
    ∃ token ∈ tokens, header = bearer token := by
  induction tokens with
  | nil => simp [compareTokens] at h
  | cons token tokens ih =>
    obtain ⟨expected, hexpected, hrest⟩ := bind_eq_ok.mp h
    rw [encode_eq_ok] at hexpected
    split_ifs at hrest with heq
    · have hsame : encodeUtf8 header = encodeUtf8 (bearer token) := by rw [hheader, hexpected, heq]
      rw [encodeUtf8_inj (encodable_of_encodeUtf8 hheader) (encodable_of_encodeUtf8 hexpected)] at hsame
      exact ⟨token, List.mem_cons_self, hsame⟩
    · obtain ⟨token', hmem, heq'⟩ := ih hrest
      exact ⟨token', List.mem_cons_of_mem _ hmem, heq'⟩

/-- With tokens that can be encoded, the loop finds out whether the header carries one of them. -/
theorem compareTokens_complete {header : PyStr} {bytes : ByteArray} (hheader : encodeUtf8 header = some bytes)
    {tokens : List PyStr} (h : ∀ token ∈ tokens, Encodable token) :
    ∃ b, compareTokens library bytes tokens = .ok b ∧ (b = true ↔ ∃ token ∈ tokens, header = bearer token) := by
  induction tokens with
  | nil => exact ⟨false, rfl, by simp⟩
  | cons token tokens ih =>
    rw [List.forall_mem_cons] at h
    have hencoded : encodeUtf8 (bearer token) = some (toText (bearer token)).toByteArray :=
      if_pos (encodable_bearer.mpr h.1)
    have hsame : bytes = (toText (bearer token)).toByteArray ↔ header = bearer token := by
      rw [← encodeUtf8_inj (encodable_of_encodeUtf8 hheader) (encodable_bearer.mpr h.1), hheader, hencoded,
        Option.some.injEq]
    simp only [compareTokens, encode_eq_ok.mpr hencoded, bind, Except.bind, List.exists_mem_cons_iff]
    split_ifs with heq
    · exact ⟨true, rfl, by simp [hsame.mp heq]⟩
    · obtain ⟨b, hb, hiff⟩ := ih h.2
      refine ⟨b, hb, hiff.trans ?_⟩
      simp [mt hsame.mpr heq]

/-- A header that is let through is the header of one of the tokens. -/
theorem checkBearerToken_sound {header : PyStr} {tokens : Finset PyStr}
    (h : checkBearerToken library order header tokens = .ok true) : ∃ token ∈ tokens, header = bearer token := by
  obtain ⟨bytes, hbytes, hcompare⟩ := bind_eq_ok.mp h
  obtain ⟨token, hmem, heq⟩ := compareTokens_sound (encode_eq_ok.mp hbytes) hcompare
  exact ⟨token, order.mem_list.mp hmem, heq⟩

/-- Where everything can be encoded, the check comes to an answer, and lets exactly the headers of the tokens
through. -/
theorem checkBearerToken_complete {header : PyStr} {tokens : Finset PyStr} (hheader : Encodable header)
    (h : ∀ token ∈ tokens, Encodable token) : ∃ b, checkBearerToken library order header tokens = .ok b ∧
      (b = true ↔ ∃ token ∈ tokens, header = bearer token) := by
  have hencoded : encodeUtf8 header = some (toText header).toByteArray := if_pos hheader
  obtain ⟨b, hb, hiff⟩ : ∃ b, compareTokens library (toText header).toByteArray (order.list tokens) = .ok b ∧ _ :=
    compareTokens_complete hencoded fun token hmem => h token (order.mem_list.mp hmem)
  refine ⟨b, ?_, hiff.trans ?_⟩
  · rw [checkBearerToken, encode_eq_ok.mpr hencoded]
    exact hb
  · simp only [order.mem_list]

/-- An order that starts with a token. -/
theorem exists_order {token : PyStr} {tokens : Finset PyStr} (h : token ∈ tokens) :
    ∃ (order : SetOrder) (rest : List PyStr), order.list tokens = token :: rest := by
  classical
  let list (s : Finset PyStr) : List PyStr := if token ∈ s then token :: (s.erase token).toList else s.toList
  have hmem {s : Finset PyStr} {t : PyStr} : t ∈ list s ↔ t ∈ s := by
    by_cases hs : token ∈ s
    · by_cases ht : t = token <;> simp [list, hs, ht]
    · simp [list, hs]
  exact ⟨⟨list, hmem⟩, _, if_pos h⟩

/-- A text that cannot be encoded makes the check raise, a token in some order of the comparisons. -/
theorem checkBearerToken_raises {header : PyStr} {tokens : Finset PyStr}
    (h : ¬ Encodable header ∨ ∃ token ∈ tokens, ¬ Encodable token) :
    ∃ order exc, checkBearerToken library order header tokens = .error exc := by
  by_cases hheader : Encodable header
  · obtain ⟨token, hmem, htoken⟩ := h.resolve_left (not_not.mpr hheader)
    obtain ⟨order, rest, hlist⟩ := exists_order hmem
    obtain ⟨exc, hexc⟩ := encode_eq_error library (mt encodable_bearer.mp htoken)
    refine ⟨order, exc, ?_⟩
    simp [checkBearerToken, encode_eq_ok.mpr (if_pos hheader), hlist, compareTokens, hexc, bind, Except.bind]
  · obtain ⟨exc, hexc⟩ := encode_eq_error library hheader
    refine ⟨⟨Finset.toList, by simp⟩, exc, ?_⟩
    rw [checkBearerToken, hexc]
    rfl

/-! ## Production -/

/-- What the start-up check leaves of production settings. -/
structure ProductionReady (library : Library) (settings : Settings) : Prop where
  tokens : settings.getApiTokens ≠ ∅
  noDefault : ¬ settings.Reads defaultApiToken
  hosts : settings.getAllowedHosts library.tables.lower ≠ ∅

/-- What `validate_runtime` demands of a production environment. -/
theorem productionReady (hprod : settings.env = .prod)
    (hvalid : settings.validateRuntime library.tables.lower = .ok ()) : ProductionReady library settings := by
  unfold Settings.validateRuntime at hvalid
  simp only [hprod, true_and] at hvalid
  split_ifs at hvalid with htokens hdefault hhosts
  refine ⟨htokens, fun hreads => hdefault ?_, hhosts⟩
  rwa [← mem_readTokens, Finset.mem_union] at hreads

/-- A production environment has a token that may read. -/
theorem ProductionReady.readTokens (h : ProductionReady library settings) :
    settings.getApiTokens ∪ settings.getReadOnlyApiTokens ≠ ∅ := by
  obtain ⟨token, htoken⟩ := Finset.nonempty_iff_ne_empty.mpr h.tokens
  exact Finset.ne_empty_of_mem (Finset.mem_union_left _ htoken)

/-- The tokens that may write are those of `API_AUTH_TOKENS`. -/
theorem mem_writeTokens {token : PyStr} : token ∈ settings.getApiTokens ↔ settings.Writes token := mem_listedParts

/-- A token that may write may read. -/
theorem Settings.Writes.reads {token : PyStr} (h : settings.Writes token) : settings.Reads token := .inl h

/-- What the tests make of a header, once its comparisons have results. -/
theorem requireApiToken_eq (h : ProductionReady library settings) {header : PyStr} {b : Bool}
    (hb : checkBearerToken library order header (settings.getApiTokens ∪ settings.getReadOnlyApiTokens) = .ok b) :
    requireApiToken library order settings (some header) =
      if b then .ok () else .error (raiseUnauthorized "Invalid bearer token") := by
  simp only [requireApiToken, if_neg h.readTokens, hb]
  cases b <;> rfl

/-- In production `require_api_write_token` decides by its two checks: a token that may only read is forbidden, any
other is unauthorized. -/
theorem requireApiWriteToken_eq (h : ProductionReady library settings) {header : PyStr} {write read : Bool}
    (hwrite : checkBearerToken library order header settings.getApiTokens = .ok write)
    (hread : checkBearerToken library order header (settings.getApiTokens ∪ settings.getReadOnlyApiTokens) =
      .ok read) :
    requireApiWriteToken library order settings (some header) =
      if write then .ok () else if read then .error (raiseForbidden "Bearer token is read-only")
      else .error (raiseUnauthorized "Invalid bearer token") := by
  simp only [requireApiWriteToken, if_neg h.readTokens, hwrite, hread]
  cases write <;> cases read <;> rfl

/-- Nothing but a listed token passes, whatever can be encoded. -/
theorem bears_of_requireApiToken (h : ProductionReady library settings)
    (hpass : requireApiToken library order settings authorization = .ok ()) : Bears settings.Reads authorization := by
  simp only [requireApiToken, if_neg h.readTokens] at hpass
  cases authorization with
  | none => cases hpass
  | some header =>
    cases hcheck : checkBearerToken library order header (settings.getApiTokens ∪ settings.getReadOnlyApiTokens) with
    | error exc => simp [hcheck] at hpass
    | ok b =>
      cases b with
      | true =>
        obtain ⟨token, hmem, rfl⟩ := checkBearerToken_sound hcheck
        exact ⟨token, mem_readTokens.mp hmem, rfl⟩
      | false => simp [hcheck] at hpass

/-- In production a request that may write bears a token that may write. -/
theorem bears_of_requireApiWriteToken (h : ProductionReady library settings)
    (hpass : requireApiWriteToken library order settings authorization = .ok ()) :
    Bears settings.Writes authorization := by
  simp only [requireApiWriteToken, if_neg h.readTokens] at hpass
  cases authorization with
  | none => cases hpass
  | some header =>
    cases hcheck : checkBearerToken library order header settings.getApiTokens with
    | error exc => simp [hcheck] at hpass
    | ok b =>
      cases b with
      | true =>
        obtain ⟨token, hmem, rfl⟩ := checkBearerToken_sound hcheck
        exact ⟨token, mem_writeTokens.mp hmem, rfl⟩
      | false =>
        cases hread : checkBearerToken library order header
            (settings.getApiTokens ∪ settings.getReadOnlyApiTokens) with
        | error exc => simp [hcheck, hread] at hpass
        | ok b => cases b <;> simp [hcheck, hread] at hpass

/-- Neither an empty nor the default token is listed. -/
theorem not_bears_weak (h : ProductionReady library settings)
    (hweak : authorization = none ∨ authorization = some (bearer []) ∨ authorization = some (bearer defaultApiToken)) :
    ¬ Bears settings.Reads authorization := by
  rcases hweak with rfl | rfl | rfl
  · rintro ⟨token, -, heq⟩
    cases heq
  · rw [bears_some]
    rintro (⟨hne, -⟩ | ⟨hne, -⟩)
    · exact hne rfl
    · exact hne rfl
  · rw [bears_some]
    exact h.noDefault

/-- A header that may write may read. -/
theorem Bears.reads (h : Bears settings.Writes authorization) : Bears settings.Reads authorization := by
  obtain ⟨token, htoken, heq⟩ := h
  exact ⟨token, htoken.reads, heq⟩

/-- In production an allowed host is one of the list, because the list is not empty. -/
theorem hostListed_of_allowed {url hostname : PyStr} (h : ProductionReady library settings)
    (hhost : extractUrlHostname library.tables url = .ok hostname)
    (hallowed : AllowedHost library.tables.lower (settings.getAllowedHosts library.tables.lower) hostname) :
    HostListed library settings url := ⟨hostname, hhost, hallowed h.hosts⟩

/-- An accepted job goes to a listed host. -/
theorem hostListed_of_enqueued (h : ProductionReady library settings) {request : EnqueueInput} {inserted : JobInsert}
    {user : HttpJobPayload} (hok : validateRequest library settings request = .ok inserted)
    (hkind : inserted.kind = .http) (huser : RequestPayload library request user) :
    HostListed library settings user.url := by
  obtain ⟨validated, stored, haccepts, rfl⟩ := validateRequest_eq_ok.mp hok
  have hstored := haccepts.stored
  rw [show validated.kind = .http from hkind] at hstored
  obtain ⟨model, hmodel, hrules, -⟩ := validateHttpPayload_eq_ok.mp hstored
  obtain ⟨validated', hread, huser⟩ := huser
  obtain rfl := Except.ok.inj (haccepts.read.symm.trans hread)
  obtain rfl := Option.some.inj (hmodel.symm.trans huser)
  obtain ⟨hostname, hhost, hallowed⟩ := hrules.host
  exact hostListed_of_allowed h hhost hallowed

/-- A request is made to a listed host. -/
theorem hostListed_of_sent (h : ProductionReady library settings) {uuid : UuidText} {job : JobRow}
    {request : HttpRequest} (hok : prepareRequest uuid library settings job = .ok request) :
    HostListed library settings request.url := by
  unfold prepareRequest at hok
  cases hread : readPayload library.pydantic job.payload with
  | none => simp [hread] at hok
  | some payload =>
    simp only [hread, bind_eq_ok] at hok
    obtain ⟨⟨⟩, -, hostname, hhost, ⟨⟩, hallowed, content, -, hrequest⟩ := hok
    obtain rfl := Except.ok.inj hrequest
    exact hostListed_of_allowed h hhost (validateAllowedHost_eq_ok.mp hallowed)

/-- The check finds out whether a header that can be compared carries a token of a kind. -/
theorem checkBearerToken_bears {header : PyStr} (hcompare : CanBeCompared settings (some header))
    {tokens : Finset PyStr} {kind : PyStr → Prop} (hkind : ∀ token, token ∈ tokens ↔ kind token)
    (hreads : ∀ token, kind token → settings.Reads token) (library : Library) (order : SetOrder) :
    ∃ b, checkBearerToken library order header tokens = .ok b ∧ (b = true ↔ Bears kind (some header)) := by
  obtain ⟨hheader, htokens⟩ := hcompare header rfl
  obtain ⟨b, hb, hiff⟩ : ∃ b, checkBearerToken library order header tokens = .ok b ∧ _ :=
    checkBearerToken_complete hheader fun token hmem => htokens token (hreads token ((hkind token).mp hmem))
  refine ⟨b, hb, hiff.trans ?_⟩
  simp only [Bears, hkind, Option.some.injEq]

/-- A header that can be compared may read if it carries a listed token, and is refused with 401 otherwise. -/
theorem requireApiToken_cases (h : ProductionReady library settings) (hcompare : CanBeCompared settings authorization)
    (order : SetOrder) :
    Bears settings.Reads authorization ∧ requireApiToken library order settings authorization = .ok () ∨
      ¬ Bears settings.Reads authorization ∧ ∃ message,
        requireApiToken library order settings authorization = .error (raiseUnauthorized message) := by
  cases authorization with
  | none =>
    refine .inr ⟨not_bears_weak h (.inl rfl), "Missing bearer token", ?_⟩
    rw [requireApiToken, if_neg h.readTokens]
  | some header =>
    obtain ⟨b, hb, hiff⟩ := checkBearerToken_bears hcompare (fun _ => mem_readTokens) (fun _ => id) library order
    rw [requireApiToken_eq h hb, ← hiff]
    cases b with
    | true => exact .inl ⟨rfl, rfl⟩
    | false => exact .inr ⟨by simp, _, rfl⟩

/-- It may write if it carries a token that may write, and is refused with 403 if it may only read. -/
theorem requireApiWriteToken_cases (h : ProductionReady library settings)
    (hcompare : CanBeCompared settings authorization) (order : SetOrder) :
    Bears settings.Writes authorization ∧ requireApiWriteToken library order settings authorization = .ok () ∨
      ¬ Bears settings.Writes authorization ∧
        (Bears settings.Reads authorization ∧ (∃ message,
          requireApiWriteToken library order settings authorization = .error (raiseForbidden message)) ∨
        ¬ Bears settings.Reads authorization ∧ ∃ message,
          requireApiWriteToken library order settings authorization = .error (raiseUnauthorized message)) := by
  cases authorization with
  | none =>
    have hnone := not_bears_weak h (.inl rfl : (none : Option PyStr) = none ∨ _)
    refine .inr ⟨fun hbears => hnone hbears.reads, .inr ⟨hnone, "Missing bearer token", ?_⟩⟩
    rw [requireApiWriteToken, if_neg h.readTokens]
  | some header =>
    obtain ⟨read, hread, hreads⟩ :=
      checkBearerToken_bears hcompare (fun _ => mem_readTokens) (fun _ => id) library order
    obtain ⟨write, hwrite, hwrites⟩ :=
      checkBearerToken_bears hcompare (fun _ => mem_writeTokens) (fun _ => .inl) library order
    rw [requireApiWriteToken_eq h hwrite hread, ← hreads, ← hwrites]
    cases write with
    | true => exact .inl ⟨rfl, rfl⟩
    | false =>
      cases read with
      | true => exact .inr ⟨by simp, .inl ⟨rfl, _, rfl⟩⟩
      | false => exact .inr ⟨by simp, .inr ⟨by simp, _, rfl⟩⟩

/-- Where every comparison can be made, production fails closed. -/
theorem failsClosed_of_canBeCompared (uuid : UuidText) (h : ProductionReady library settings)
    (hcompare : CanBeCompared settings authorization) : FailsClosed uuid library settings authorization where
  read order := by
    refine ⟨bears_of_requireApiToken h, fun hbears => ?_⟩
    rcases requireApiToken_cases h hcompare order with ⟨-, hok⟩ | ⟨hnot, -⟩
    · exact hok
    · exact absurd hbears hnot
  write order := by
    refine ⟨bears_of_requireApiWriteToken h, fun hbears => ?_⟩
    rcases requireApiWriteToken_cases h hcompare order with ⟨-, hok⟩ | ⟨hnot, -⟩
    · exact hok
    · exact absurd hbears hnot
  writeReads order order' hwrite := by
    rcases requireApiToken_cases h hcompare order' with ⟨-, hok⟩ | ⟨hnot, -⟩
    · exact hok
    · exact absurd (bears_of_requireApiWriteToken h hwrite).reads hnot
  weak hweak order := ⟨fun hok => not_bears_weak h hweak (bears_of_requireApiToken h hok),
    fun hok => not_bears_weak h hweak (bears_of_requireApiWriteToken h hok).reads⟩
  unread hnot order := by
    rcases requireApiToken_cases h hcompare order with ⟨hbears, -⟩ | ⟨-, hrefused⟩
    · exact absurd hbears hnot
    · exact hrefused
  readOnly hreads hnot order := by
    rcases requireApiWriteToken_cases h hcompare order with ⟨hbears, -⟩ | ⟨-, ⟨-, hrefused⟩ | ⟨hnone, -⟩⟩
    · exact absurd hbears hnot
    · exact hrefused
    · exact absurd hreads hnone
  unwritten hnot order := by
    rcases requireApiWriteToken_cases h hcompare order with ⟨hbears, -⟩ | ⟨-, ⟨hreads, -⟩ | ⟨-, hrefused⟩⟩
    · exact absurd hbears.reads hnot
    · exact absurd hreads hnot
    · exact hrefused
  enqueued _ _ _ hok hkind huser := hostListed_of_enqueued h hok hkind huser
  sent _ _ hok := hostListed_of_sent h hok

/-- A header that cannot be compared is answered with neither a pass nor a refusal, in some order. -/
theorem canBeCompared_of_failsClosed {uuid : UuidText} (h : ProductionReady library settings)
    (hclosed : FailsClosed uuid library settings authorization) : CanBeCompared settings authorization := by
  intro header hmem
  by_contra hnot
  obtain rfl : authorization = some header := hmem
  have hbroken : ¬ Encodable header ∨
      ∃ token ∈ settings.getApiTokens ∪ settings.getReadOnlyApiTokens, ¬ Encodable token := by
    by_contra hfine
    push Not at hfine
    exact hnot ⟨hfine.1, fun token hreads => hfine.2 token (mem_readTokens.mpr hreads)⟩
  obtain ⟨order, exc, hraised⟩ : ∃ order exc, checkBearerToken library order header _ = .error exc :=
    checkBearerToken_raises hbroken
  have hresult : requireApiToken library order settings (some header) = .error (.raised exc) := by
    simp only [requireApiToken, if_neg h.readTokens, hraised]
  by_cases hbears : Bears settings.Reads (some header)
  · cases hresult.symm.trans ((hclosed.read order).mpr hbears)
  · obtain ⟨message, hrefused⟩ := hclosed.unread hbears order
    cases hresult.symm.trans hrefused

/-- Production settings fail closed for a header exactly if there is none, or it and all tokens can be encoded. -/
theorem failsClosed_iff (uuid : UuidText) (hprod : settings.env = .prod)
    (hvalid : settings.validateRuntime library.tables.lower = .ok ()) :
    FailsClosed uuid library settings authorization ↔ CanBeCompared settings authorization :=
  ⟨canBeCompared_of_failsClosed (productionReady hprod hvalid),
    failsClosed_of_canBeCompared uuid (productionReady hprod hvalid)⟩

/-- Production settings with a byte that is no UTF-8 in a token. -/
def undecodableToken : Settings := { Settings.smallest with
  env := .prod
  apiAuthTokens := ofString "secret," ++ [codePoint 0xDCFF]
  httpAllowedHosts := ofString "example.org" }

/-- The settings with the undecodable token are accepted. -/
theorem validateRuntime_undecodableToken : undecodableToken.validateRuntime .asciiOnly = .ok () := by
  have hok : (undecodableToken.validateRuntime .asciiOnly).isOk = true := by decide +kernel
  obtain ⟨_, hresult⟩ := exists_eq_ok_of_isOk hok
  exact hresult

/-- A right token that is compared before the undecodable one. -/
theorem failsClosed_iff_undecodableToken :
    FailsClosed oneUuid .jsonOnly undecodableToken (some (bearer (ofString "secret"))) ↔
      CanBeCompared undecodableToken (some (bearer (ofString "secret"))) :=
  failsClosed_iff oneUuid rfl validateRuntime_undecodableToken

/-- A wrong token that is compared with the undecodable one: the request ends with neither an answer nor a refusal.
-/
theorem not_failsClosed_undecodableToken : ¬ ∀ uuid library settings authorization,
    settings.env = .prod → settings.validateRuntime library.tables.lower = .ok () →
      FailsClosed uuid library settings authorization := by
  intro hall
  have hclosed := hall oneUuid .jsonOnly undecodableToken (some (bearer (ofString "wrong"))) rfl
    validateRuntime_undecodableToken
  have hcompare := canBeCompared_of_failsClosed (productionReady rfl validateRuntime_undecodableToken) hclosed
  have hlisted : [codePoint 0xDCFF] ∈ undecodableToken.getApiTokens := by decide +kernel
  exact absurd ((hcompare _ rfl).2 _ (mem_writeTokens.mp hlisted).reads) (by decide)

end PgRelay
