import PgRelay.PyText.Url
import PgRelay.Executors
import Mathlib.Data.Finset.Basic

/-!
# Settings and validation helpers

The settings that the validation of jobs and the authorisation of requests read, and `utils/validation.py`.
A helper raises the `ValidationError` of PgRelay, or lets a `ValueError` of the library pass.
-/

namespace PgRelay

open PyText

/-! ## Values within bounds -/

/-- An integer with the bounds of its field. -/
abbrev BoundedInt (low high : Int) := {n : Int // low ≤ n ∧ n ≤ high}

/-- A string with the bounds of its field. A string field with bounds takes no surrogates. -/
abbrev BoundedStr (low high : ℕ) := {s : PyStr // low ≤ s.length ∧ s.length ≤ high ∧ Encodable s}

/-! ## Settings -/

/-- The values of `env`. -/
inductive Env
  | dev
  | test
  | prod
  deriving DecidableEq, Repr

/-- `Settings`, as far as it is used here. -/
structure Settings where
  env : Env
  apiAuthTokens : PyStr
  apiReadOnlyAuthTokens : PyStr
  workerConcurrency : BoundedInt 1 256
  dbPoolSize : BoundedInt 1 512
  dbMaxOverflow : BoundedInt 0 512
  httpMaxTimeoutSeconds : BoundedInt 1 600
  httpAllowedHosts : PyStr
  blockPrivateNetworkTargets : Bool
  maxPayloadBytes : BoundedInt 1024 10485760
  maxHeadersBytes : BoundedInt 1024 262144
  maxMetadataBytes : BoundedInt 1024 262144

/-- The settings of a development environment with the smallest limits. -/
def Settings.smallest : Settings where
  env := .dev
  apiAuthTokens := []
  apiReadOnlyAuthTokens := []
  workerConcurrency := ⟨1, by decide⟩
  dbPoolSize := ⟨3, by decide⟩
  dbMaxOverflow := ⟨0, by decide⟩
  httpMaxTimeoutSeconds := ⟨120, by decide⟩
  httpAllowedHosts := []
  blockPrivateNetworkTargets := true
  maxPayloadBytes := ⟨1024, by decide⟩
  maxHeadersBytes := ⟨1024, by decide⟩
  maxMetadataBytes := ⟨1024, by decide⟩

/-- The stripped parts of a comma-separated text that are not empty. -/
def listedParts (s : PyStr) : List PyStr := ((splitComma s).map strip).filter fun part => part ≠ []

/-- `get_allowed_hosts`. -/
def Settings.getAllowedHosts (lower : StrLower) (settings : Settings) : Finset PyStr :=
  (((splitComma settings.httpAllowedHosts).map fun part => lower.lower (strip part)).filter fun host =>
    host ≠ []).toFinset

/-- `get_api_tokens`. -/
def Settings.getApiTokens (settings : Settings) : Finset PyStr := (listedParts settings.apiAuthTokens).toFinset

/-- `get_read_only_api_tokens`. -/
def Settings.getReadOnlyApiTokens (settings : Settings) : Finset PyStr :=
  (listedParts settings.apiReadOnlyAuthTokens).toFinset

/-! ## Exceptions -/

/-- `ValidationError(message)`. -/
def validationError (message : PyStr) : PyException :=
  ⟨.validationError, ofString "ValidationError", message, by decide⟩

/-- A `ValueError` that is none of PgRelay. -/
def valueError (message : PyStr) : PyException := ⟨.other, ofString "ValueError", message, by decide⟩

/-- A `TypeError`. -/
def typeError (message : PyStr) : PyException := ⟨.other, ofString "TypeError", message, by decide⟩

/-- A `UnicodeEncodeError`. -/
def unicodeEncodeError (message : PyStr) : PyException :=
  ⟨.other, ofString "UnicodeEncodeError", message, by decide⟩

/-- `RecursionError` of the JSON encoder. -/
def recursionError : PyException :=
  ⟨.other, ofString "RecursionError", ofString "maximum recursion depth exceeded while encoding a JSON object",
    by decide⟩

/-- The `ValidationError` of pydantic, which is a `ValueError`. -/
def pydanticError (message : PyStr) : PyException := ⟨.other, ofString "ValidationError", message, by decide⟩

/-- A call that succeeds has a result. -/
theorem exists_eq_ok_of_isOk {ε α : Type} {x : Except ε α} (h : x.isOk = true) : ∃ a, x = .ok a := by
  cases x with
  | error e => cases h
  | ok a => exact ⟨a, rfl⟩

/-! ## Queue names and headers -/

/-- A letter or a digit of `QUEUE_NAME_PATTERN`. -/
def isAlnum (c : CodePoint) : Bool := isAsciiLetter c || isAsciiDigit c

/-- The rest of a queue name after a letter or digit, and after a separator. -/
def queueNameRest : Bool → PyStr → Bool
  | afterSeparator, [] => !afterSeparator
  | afterSeparator, c :: rest =>
    if isAlnum c then queueNameRest false rest
    else decide (c ∈ ofString "._-") && !afterSeparator && queueNameRest true rest

/-- `QUEUE_NAME_PATTERN.fullmatch`. -/
def queueNamePattern : PyStr → Bool
  | [] => false
  | c :: rest => isAsciiLetter c && queueNameRest false rest

/-- A valid queue name. -/
def ValidQueueName (value : PyStr) : Prop :=
  1 ≤ value.length ∧ value.length ≤ 128 ∧ queueNamePattern value = true

instance (value : PyStr) : Decidable (ValidQueueName value) := inferInstanceAs (Decidable (_ ∧ _ ∧ _))

/-- `validate_queue_name`. -/
def validateQueueName (value : PyStr) : Except PyException Unit :=
  if value.length < 1 ∨ value.length > 128 ∨ queueNamePattern value = false then
    .error (validationError (ofString "Invalid queue name"))
  else .ok ()

/-- A character of `HEADER_NAME_PATTERN`. -/
def isHeaderNameChar (c : CodePoint) : Bool :=
  isAlnum c || decide (c ∈ ofString "!#$%&'*+-.^_\x60|~")

/-- `HEADER_NAME_PATTERN.fullmatch`. -/
def headerNamePattern (name : PyStr) : Bool := decide (name ≠ []) && name.all isHeaderNameChar

/-- `validate_header_name`. -/
def validateHeaderName (name : PyStr) : Except PyException Unit :=
  if headerNamePattern name then .ok () else .error (validationError (ofString "Invalid HTTP header name"))

/-- A carriage return or a line feed stands in the text. -/
def HasCrlf (value : PyStr) : Prop := char '\r' ∈ value ∨ char '\n' ∈ value

instance (value : PyStr) : Decidable (HasCrlf value) := inferInstanceAs (Decidable (_ ∨ _))

/-- `validate_header_value`. -/
def validateHeaderValue (value : PyStr) : Except PyException Unit :=
  if HasCrlf value then .error (validationError (ofString "HTTP header value contains CRLF")) else .ok ()

/-- `validate_headers`. -/
def validateHeaders : List (PyStr × PyStr) → Except PyException Unit
  | [] => .ok ()
  | (name, value) :: headers => do
    validateHeaderName name
    validateHeaderValue value
    validateHeaders headers

/-- Headers that pass `validate_headers`. -/
def ValidHeaders (headers : List (PyStr × PyStr)) : Prop :=
  ∀ header ∈ headers, headerNamePattern header.1 = true ∧ ¬ HasCrlf header.2

instance (headers : List (PyStr × PyStr)) : Decidable (ValidHeaders headers) := List.decidableBAll _ headers

/-! ## URLs -/

/-- `extract_url_hostname`, which `validate_url_syntax` calls. -/
def extractUrlHostname (tables : UrlTables) (url : PyStr) : Except PyException PyStr :=
  match urlparse tables url with
  | none => .error (valueError (tables.errorText url))
  | some parsed =>
    if parsed.scheme ∉ [ofString "http", ofString "https"] then
      .error (validationError (ofString "URL scheme must be http or https"))
    else
      match parsed.hostname tables with
      | none => .error (validationError (ofString "URL hostname is required"))
      | some hostname => .ok (tables.lower.lower hostname)

/-- `validate_allowed_host`. -/
def validateAllowedHost (lower : StrLower) (hostname : PyStr) (allowedHosts : Finset PyStr) : Except PyException Unit :=
  if allowedHosts ≠ ∅ ∧ lower.lower hostname ∉ allowedHosts then
    .error (validationError (ofString "HTTP target host is not allowed"))
  else .ok ()

/-! ## Addresses -/

/-- The properties of an `ipaddress.IPv4Address` or `IPv6Address` that are asked for. -/
structure IpAddress where
  isGlobal : Bool
  isPrivate : Bool
  isLoopback : Bool
  isLinkLocal : Bool
  isMulticast : Bool
  isReserved : Bool
  isUnspecified : Bool

/-- The module `ipaddress`: what `ip_address` makes of a text, and the text of its `ValueError`. -/
structure IpLibrary where
  ipAddress : PyStr → Option IpAddress
  errorText : PyStr → PyStr

/-- `is_blocked_ip_address`. -/
def isBlockedIpAddress (ip : IpLibrary) (address : PyStr) : Except PyException Bool :=
  match ip.ipAddress address with
  | none => .error (valueError (ip.errorText address))
  | some ipAddress => .ok (!ipAddress.isGlobal || ipAddress.isPrivate || ipAddress.isLoopback ||
      ipAddress.isLinkLocal || ipAddress.isMulticast || ipAddress.isReserved || ipAddress.isUnspecified)

/-! ## What the helpers accept -/

/-- The result is accepted, or a `ValidationError` of PgRelay is raised. -/
def Translated {α : Type} (result : Except PyException α) : Prop :=
  ∀ exc, result = .error exc → exc.cls = .validationError

/-- What returns raises nothing. -/
theorem translated_ok {α : Type} (a : α) : Translated (.ok a : Except PyException α) := fun _ h => by cases h

/-- A `ValidationError` is one. -/
theorem translated_error {α : Type} (message : PyStr) :
    Translated (.error (validationError message) : Except PyException α) := by
  rintro exc h
  obtain rfl : validationError message = exc := by simpa using h
  rfl

/-- The check of a queue name accepts the valid ones. -/
theorem validateQueueName_eq_ok {value : PyStr} : validateQueueName value = .ok () ↔ ValidQueueName value := by
  have hvalid : ¬ (value.length < 1 ∨ value.length > 128 ∨ queueNamePattern value = false) ↔ ValidQueueName value := by
    rw [not_or, not_or, Bool.not_eq_false, not_lt, not_lt]
    rfl
  rw [← hvalid, validateQueueName]
  split_ifs with h
  · exact iff_of_false (by simp) (not_not.mpr h)
  · exact iff_of_true rfl h

/-- It raises nothing but `ValidationError`. -/
theorem translated_validateQueueName (value : PyStr) : Translated (validateQueueName value) := by
  unfold validateQueueName
  split_ifs
  · exact translated_error _
  · exact translated_ok _

/-- The first header is checked first, its name before its value. -/
theorem validateHeaders_cons {name value : PyStr} {headers : List (PyStr × PyStr)} :
    validateHeaders ((name, value) :: headers) =
      if headerNamePattern name = false then .error (validationError (ofString "Invalid HTTP header name"))
      else if HasCrlf value then .error (validationError (ofString "HTTP header value contains CRLF"))
      else validateHeaders headers := by
  cases hname : headerNamePattern name with
  | false => simp [validateHeaders, validateHeaderName, hname, bind, Except.bind]
  | true =>
    by_cases hvalue : HasCrlf value <;>
      simp [validateHeaders, validateHeaderName, validateHeaderValue, hname, hvalue, bind, Except.bind]

/-- The check of headers accepts the valid ones. -/
theorem validateHeaders_eq_ok {headers : List (PyStr × PyStr)} :
    validateHeaders headers = .ok () ↔ ValidHeaders headers := by
  induction headers with
  | nil => simp [validateHeaders, ValidHeaders]
  | cons header headers ih =>
    obtain ⟨name, value⟩ := header
    rw [ValidHeaders, List.forall_mem_cons, ← ValidHeaders, ← ih, validateHeaders_cons]
    split_ifs with hname hvalue
    · simp [hname]
    · simp [hvalue]
    · simp [hname, hvalue]

/-- It raises nothing but `ValidationError`. -/
theorem translated_validateHeaders (headers : List (PyStr × PyStr)) : Translated (validateHeaders headers) := by
  induction headers with
  | nil => exact translated_ok _
  | cons header headers ih =>
    obtain ⟨name, value⟩ := header
    rw [validateHeaders_cons]
    split_ifs
    · exact translated_error _
    · exact translated_error _
    · exact ih

/-- A host passes the allow-list: there is none, or it lists the host. -/
def AllowedHost (lower : StrLower) (allowedHosts : Finset PyStr) (hostname : PyStr) : Prop :=
  allowedHosts ≠ ∅ → lower.lower hostname ∈ allowedHosts

instance (lower : StrLower) (allowedHosts : Finset PyStr) (hostname : PyStr) :
    Decidable (AllowedHost lower allowedHosts hostname) := inferInstanceAs (Decidable (_ → _))

/-- The check of a host accepts the allowed ones. -/
theorem validateAllowedHost_eq_ok {lower : StrLower} {hostname : PyStr} {allowedHosts : Finset PyStr} :
    validateAllowedHost lower hostname allowedHosts = .ok () ↔ AllowedHost lower allowedHosts hostname := by
  unfold validateAllowedHost
  split_ifs with h
  · simpa [AllowedHost] using h
  · simpa [AllowedHost] using h

/-- It raises nothing but `ValidationError`. -/
theorem translated_validateAllowedHost (lower : StrLower) (hostname : PyStr) (allowedHosts : Finset PyStr) :
    Translated (validateAllowedHost lower hostname allowedHosts) := by
  unfold validateAllowedHost
  split_ifs
  · exact translated_error _
  · exact translated_ok _

/-- Only a URL that `urlparse` refuses makes another error. -/
theorem translated_extractUrlHostname {tables : UrlTables} {url : PyStr} :
    Translated (extractUrlHostname tables url) ↔ urlparse tables url ≠ none := by
  unfold extractUrlHostname
  cases urlparse tables url with
  | none => simp [Translated, valueError]
  | some parsed =>
    simp only [ne_eq, reduceCtorEq, not_false_eq_true, iff_true]
    split_ifs
    · cases parsed.hostname tables with
      | none => exact translated_error _
      | some hostname => exact translated_ok _
    · exact translated_error _

end PgRelay
