import PgRelay.PyText.Utf8
import Mathlib.Data.List.TakeDrop

/-!
# The executors

How the worker turns the behaviour of an HTTP target or of a handler into an `ExecutorResult`. The
inputs are what the program cannot control: the status, the charset and the body of a response, the
result of a handler, and the exceptions raised on the way, which the `except` clauses tell apart by
class. Python's codecs are a parameter, since any installed one may be named by a response.
-/

namespace PgRelay

open PyText

/-- The exceptions, as far as an `except` clause of the worker tells them apart. -/
inductive ExceptionClass
  /-- `httpx.TimeoutException`. -/
  | httpxTimeout
  /-- `httpx.NetworkError` and `httpx.ProxyError`. -/
  | httpxNetwork
  /-- `httpx.ProtocolError`, `httpx.UnsupportedProtocol` and `httpx.InvalidURL`. -/
  | httpxProtocol
  /-- `TimeoutError`, which is an `OSError`. -/
  | timeoutError
  /-- The other `OSError`s. -/
  | osError
  /-- `pgrelay.errors.ValidationError`. -/
  | validationError
  /-- `RetryableJobError`. -/
  | retryableJobError
  /-- `PermanentJobError`. -/
  | permanentJobError
  /-- Every other `Exception`. -/
  | other
  /-- `asyncio.CancelledError`, which is no `Exception`. -/
  | cancelledError
  /-- Every other `BaseException`. -/
  | baseException
  deriving DecidableEq, Repr

/-- `except Exception` catches it. -/
def ExceptionClass.isException : ExceptionClass → Bool
  | .cancelledError | .baseException => false
  | _ => true

/-- Text that a text column can hold: PostgreSQL refuses U+0000, and the driver cannot encode a
surrogate. -/
def Storable (text : PyStr) : Prop := ∀ c ∈ text, c.val ≠ 0 ∧ ¬ IsSurrogate c

instance (text : PyStr) : Decidable (Storable text) := List.decidableBAll _ text

/-- A raised exception with its `type(exc).__name__` and `str(exc)`. Python refuses class names with
null characters or surrogates. -/
structure PyException where
  cls : ExceptionClass
  typeName : PyStr
  message : PyStr
  typeName_storable : Storable typeName

/-- `ExecutorOutcome`. -/
inductive ExecutorOutcome
  | succeeded
  | retryableFailure
  | permanentFailure
  | timeout
  deriving DecidableEq, Repr

/-- `ExecutorResult`. -/
structure ExecutorResult where
  outcome : ExecutorOutcome
  errorType : Option PyStr
  errorMessage : Option PyStr
  responseStatus : Option ℕ
  responseBodyPreview : Option PyStr
  durationMs : ℕ

/-- The codecs that `bytes.decode(encoding, errors="replace")` finds. It raises an `Exception` for a
codec that is not a text encoding or does not know the error handler. -/
structure Codecs where
  decode : String → List UInt8 → Except PyException PyStr
  utf8 : ∀ bytes, decode "utf-8" bytes = .ok (decodeUtf8 bytes)
  raises : ∀ encoding bytes exc, decode encoding bytes = .error exc → exc.cls.isException = true
  length_le : ∀ encoding bytes text, decode encoding bytes = .ok text → text.length ≤ bytes.length

/-! ## HTTP jobs -/

/-- `RESPONSE_PREVIEW_BYTES`. -/
def responsePreviewBytes : ℕ := 2000

/-- The loop of `_read_response_preview` after `size` bytes. -/
def readChunks (size : ℕ) : List (List UInt8) → List UInt8
  | [] => []
  | chunk :: chunks =>
    let chunkPreview := chunk.take (responsePreviewBytes - size)
    if responsePreviewBytes ≤ size + chunkPreview.length then chunkPreview
    else chunkPreview ++ readChunks (size + chunkPreview.length) chunks

/-- `response.encoding or "utf-8"`. -/
def encodingOrUtf8 : Option String → String
  | none => "utf-8"
  | some encoding => if encoding = "" then "utf-8" else encoding

/-- `_read_response_preview`. -/
def readResponsePreview (codecs : Codecs) (encoding : Option String) (chunks : List (List UInt8)) :
    Except PyException PyStr :=
  codecs.decode (encodingOrUtf8 encoding) (readChunks 0 chunks)

/-- `200 <= status < 300`. -/
def isSuccess (status : ℕ) : Bool := 200 ≤ status && status < 300

/-- `RETRYABLE_HTTP_STATUSES`. -/
def retryableHttpStatuses : List ℕ := [408, 409, 425, 429]

/-- `PERMANENT_HTTP_STATUSES`. -/
def permanentHttpStatuses : List ℕ := [400, 401, 403, 404, 405, 410, 413, 415, 422]

/-- The outcome `_classify_response` gives to a status; its last two branches agree. -/
def classifyStatus (status : ℕ) : ExecutorOutcome :=
  if isSuccess status then .succeeded
  else if status ∈ retryableHttpStatuses ∨ 500 ≤ status then .retryableFailure
  else if status ∈ permanentHttpStatuses ∨ 300 ≤ status ∧ status < 400 then .permanentFailure
  else .permanentFailure

/-- `_classify_response`. -/
def classifyResponse (status : ℕ) (preview : PyStr) (durationMs : ℕ) : ExecutorResult where
  outcome := classifyStatus status
  errorType := if isSuccess status then none else some (ofString "http_status")
  errorMessage := if isSuccess status then none else some (ofString ("HTTP status " ++ toString status))
  responseStatus := some status
  responseBodyPreview := some preview
  durationMs := durationMs

/-- `HttpJobExecutor._failure`. -/
def httpFailure (outcome : ExecutorOutcome) (exc : PyException) (durationMs : ℕ) :
    ExecutorResult where
  outcome := outcome
  errorType := some exc.typeName
  errorMessage := some (exc.message.take 2000)
  responseStatus := none
  responseBodyPreview := none
  durationMs := durationMs

/-- The `except` clauses of `HttpJobExecutor.execute`. -/
def httpExcept (exc : PyException) (durationMs : ℕ) : Except PyException ExecutorResult :=
  match exc.cls with
  | .httpxTimeout => .ok (httpFailure .timeout exc durationMs)
  | .httpxNetwork => .ok (httpFailure .retryableFailure exc durationMs)
  | .httpxProtocol => .ok (httpFailure .permanentFailure exc durationMs)
  | .timeoutError | .osError => .ok (httpFailure .retryableFailure exc durationMs)
  | .validationError => .ok (httpFailure .permanentFailure exc durationMs)
  | _ => .error exc

/-- What comes of a request: a response, with the charset of its content type and its body in the
chunks in which it arrives, or an exception, from the checks before the request on. -/
inductive HttpReply
  | response (status : Fin 1000) (encoding : Option String) (chunks : List (List UInt8))
  | raised (exc : PyException)

/-- `HttpJobExecutor.execute`. -/
def httpExecute (codecs : Codecs) (reply : HttpReply) (durationMs : ℕ) :
    Except PyException ExecutorResult :=
  match reply with
  | .raised exc => httpExcept exc durationMs
  | .response status encoding chunks =>
    match readResponsePreview codecs encoding chunks with
    | .ok preview => .ok (classifyResponse status preview durationMs)
    | .error exc => httpExcept exc durationMs

/-! ## Handler jobs -/

/-- What comes of a handler: it is not registered, returns, or raises. -/
inductive HandlerReply
  | unregistered
  | returned
  | raised (exc : PyException)

/-- `PythonHandlerExecutor._result`. -/
def handlerResult (outcome : ExecutorOutcome) (errorType errorMessage : Option PyStr)
    (durationMs : ℕ) :
    ExecutorResult where
  outcome := outcome
  errorType := errorType
  errorMessage := errorMessage
  responseStatus := none
  responseBodyPreview := none
  durationMs := durationMs

/-- `PythonHandlerExecutor.execute`; a timeout arrives as a raised `TimeoutError`. -/
def handlerExecute (reply : HandlerReply) (durationMs : ℕ) : Except PyException ExecutorResult :=
  match reply with
  | .unregistered => .ok (handlerResult .permanentFailure (some (ofString "KeyError"))
      (some (ofString "Handler not registered")) durationMs)
  | .returned => .ok (handlerResult .succeeded none none durationMs)
  | .raised exc =>
    match exc.cls with
    | .timeoutError => .ok (handlerResult .timeout (some exc.typeName) (some (ofString "Handler timed out")) durationMs)
    | .cancelledError | .baseException => .error exc
    | .retryableJobError => .ok (handlerResult .retryableFailure (some exc.typeName) (some exc.message) durationMs)
    | _ => .ok (handlerResult .permanentFailure (some exc.typeName) (some exc.message) durationMs)

/-! ## The runner -/

/-- The `ExecutorResult` of `_dispatch_job` when an HTTP job has passed its own deadline. -/
def httpTimedOut (durationMs : ℕ) : ExecutorResult where
  outcome := .timeout
  errorType := some (ofString "TimeoutError")
  errorMessage := some (ofString "HTTP job timed out")
  responseStatus := none
  responseBodyPreview := none
  durationMs := durationMs

/-- `_exception_result`. -/
def exceptionResult (exc : PyException) : ExecutorResult where
  outcome := .retryableFailure
  errorType := some exc.typeName
  errorMessage := some (exc.message.take 2000)
  responseStatus := none
  responseBodyPreview := none
  durationMs := 0

/-- How an execution behaves. -/
inductive Behaviour
  | http (reply : HttpReply)
  | httpDeadline
  | handler (reply : HandlerReply)

/-- `_dispatch_job`. -/
def dispatchJob (codecs : Codecs) (behaviour : Behaviour) (durationMs : ℕ) :
    Except PyException ExecutorResult :=
  match behaviour with
  | .http reply => httpExecute codecs reply durationMs
  | .httpDeadline => .ok (httpTimedOut durationMs)
  | .handler reply => handlerExecute reply durationMs

/-- The `except Exception` clause of `_execute_job` around the execution. -/
def catchException : Except PyException ExecutorResult → Except PyException ExecutorResult
  | .ok result => .ok result
  | .error exc => if exc.cls.isException then .ok (exceptionResult exc) else .error exc

/-- The result of an execution in `_execute_job`, or the exception that passes it. -/
def executionResult (codecs : Codecs) (behaviour : Behaviour) (durationMs : ℕ) :
    Except PyException ExecutorResult :=
  catchException (dispatchJob codecs behaviour durationMs)

/-- Exactly the statuses from 200 to 299 succeed. -/
theorem classifyStatus_eq_succeeded {status : ℕ} :
    classifyStatus status = .succeeded ↔ isSuccess status = true := by
  unfold classifyStatus
  split_ifs with hsuccess <;> simp [hsuccess]

/-- The loop collects the first 2000 bytes of the body, however it is chunked. -/
theorem readChunks_eq_take {size : ℕ} (hsize : size < responsePreviewBytes)
    (chunks : List (List UInt8)) :
    readChunks size chunks = chunks.flatten.take (responsePreviewBytes - size) := by
  induction chunks generalizing size with
  | nil => simp [readChunks]
  | cons chunk chunks ih =>
    simp only [readChunks, List.flatten_cons, List.take_append, List.length_take]
    split_ifs with hfull
    · have hle : responsePreviewBytes - size ≤ chunk.length := by omega
      simp [Nat.sub_eq_zero_of_le hle]
    · have hlt : chunk.length < responsePreviewBytes - size := by omega
      rw [ih (by omega)]
      congr 2
      omega

/-- A preview has at most 2000 characters. -/
theorem length_readResponsePreview_le {codecs : Codecs} {encoding : Option String}
    {chunks : List (List UInt8)}
    {preview : PyStr} (h : readResponsePreview codecs encoding chunks = .ok preview) :
    preview.length ≤ 2000 := by
  apply Nat.le_trans (codecs.length_le _ _ _ h)
  rw [readChunks_eq_take (by decide)]
  exact List.length_take_le _ _

end PgRelay
