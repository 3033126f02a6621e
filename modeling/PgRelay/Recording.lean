import PgRelay.Attempts
import PgRelay.Programs
import PgRelay.Executors

/-!
# Recording a result

`_record_result` writes a result in one transaction: the update of the job and the attempt row. A value
that a column refuses makes a statement fail, and then the whole transaction is rolled back. The
bounded columns never refuse a value: the preview is cut before it is decoded, and decoding does not
lengthen it. Text can be refused, for a U+0000 or a surrogate, and nothing removes these from what a
target sends or an exception says.
-/

namespace PgRelay

open RowStore PyText

/-- The value a text column keeps for a storable text. -/
def toText (text : PyStr) : String := String.ofList (text.map fun c => Char.ofNat c.val)

/-- A text keeps its length. -/
@[simp] theorem length_toText (text : PyStr) : (toText text).length = text.length := by
  simp [toText]

/-- A parameter for a text column, or nothing where the column refuses it. -/
def textParam : Option PyStr → Option (Option String)
  | none => some none
  | some text => if Storable text then some (some (toText text)) else none

/-- The values of an `integer` column. -/
def IsInt4 (n : Int) : Prop := -2147483648 ≤ n ∧ n ≤ 2147483647

instance (n : Int) : Decidable (IsInt4 n) := inferInstanceAs (Decidable (_ ∧ _))

/-- The column rules of `pgrelay_attempt`, where the types do not give them. -/
def AttemptRow.Accepted (a : AttemptRow) : Prop :=
  0 < a.attemptNumber ∧ IsInt4 a.durationMs ∧ (∀ n ∈ a.responseStatus, IsInt4 n) ∧
    ∀ text ∈ a.responseBodyPreview, text.length ≤ 2000

instance (a : AttemptRow) : Decidable a.Accepted := inferInstanceAs (Decidable (_ ∧ _ ∧ _ ∧ _))

/-- The column rules of a recorded result: those of the job and of the new attempt row. -/
def RecordAccepted (entry : JobEntry) : Prop :=
  (∀ n ∈ entry.row.lastResponseStatus, IsInt4 n) ∧ ∀ a ∈ entry.attempts.getLast?, a.Accepted

instance (entry : JobEntry) : Decidable (RecordAccepted entry) := inferInstanceAs (Decidable (_ ∧ _))

/-- The repository call of `_record_result`, or nothing where a text parameter is refused. -/
def recordOp (retryDelaySeconds : Int) (result : ExecutorResult) : Option CallOp :=
  if result.outcome = .succeeded then do
    let preview ← textParam result.responseBodyPreview
    some (.complete
      { durationMs := result.durationMs
        responseStatus := result.responseStatus.map Int.ofNat
        responseBodyPreview := preview })
  else do
    let errorType ← textParam result.errorType
    let errorMessage ← textParam result.errorMessage
    let preview ← textParam result.responseBodyPreview
    some (.fail
      { retryable := result.outcome = .retryableFailure ∨ result.outcome = .timeout
        timedOut := result.outcome = .timeout
        retryDelaySeconds := retryDelaySeconds
        durationMs := result.durationMs
        errorType := errorType
        errorMessage := errorMessage
        responseStatus := result.responseStatus.map Int.ofNat
        responseBodyPreview := preview })

/-- `_record_result` for a job that the worker owns: what is committed, if the transaction commits. -/
def recordResult (t : TxnId) (now : Timestamp) (x : Execution) (retryDelaySeconds : Int)
    (result : ExecutorResult) (entry : JobEntry) : Option JobEntry := do
  let op ← recordOp retryDelaySeconds result
  let after ← (callChange t now x entry op).version
  if RecordAccepted after then some after else none

/-! ## What the executors promise -/

/-- The texts of a result can be stored. -/
structure ExecutorResult.TextsStorable (result : ExecutorResult) : Prop where
  errorType : ∀ text ∈ result.errorType, Storable text
  errorMessage : ∀ text ∈ result.errorMessage, Storable text
  preview : ∀ text ∈ result.responseBodyPreview, Storable text

/-- What holds of every result but for its texts. -/
structure ExecutorResult.Bounded (result : ExecutorResult) : Prop where
  duration : result.durationMs < 2147483648
  status : ∀ n ∈ result.responseStatus, n < 1000
  preview : ∀ text ∈ result.responseBodyPreview, text.length ≤ 2000
  quiet : result.outcome = .succeeded → result.errorType = none ∧ result.errorMessage = none

/-- The result of a failed request fits the columns. -/
theorem httpExcept_bounded {exc : PyException} {durationMs : ℕ} (hduration : durationMs < 2147483648)
    {result : ExecutorResult} (h : httpExcept exc durationMs = .ok result) : result.Bounded := by
  unfold httpExcept at h
  split at h <;> cases h <;> exact ⟨hduration, by simp [httpFailure], by simp [httpFailure], by simp [httpFailure]⟩

/-- Every result keeps to the bounds of the columns. -/
theorem executionResult_bounded {codecs : Codecs} {behaviour : Behaviour} {durationMs : ℕ}
    (hduration : durationMs < 2147483648) {result : ExecutorResult}
    (h : executionResult codecs behaviour durationMs = .ok result) : result.Bounded := by
  unfold executionResult catchException at h
  split at h
  · rename_i dispatched hdispatch
    obtain rfl : dispatched = result := by simpa using h
    cases behaviour with
    | httpDeadline =>
      cases hdispatch
      exact ⟨hduration, by simp [httpTimedOut], by simp [httpTimedOut], by simp [httpTimedOut]⟩
    | http reply =>
      cases reply with
      | raised exc => exact httpExcept_bounded hduration hdispatch
      | response status encoding chunks =>
        simp only [dispatchJob, httpExecute] at hdispatch
        split at hdispatch
        · rename_i preview hpreview
          cases hdispatch
          refine ⟨hduration, ?_, ?_, fun hsucceeded => ?_⟩
          · simp [classifyResponse]
          · simpa [classifyResponse] using length_readResponsePreview_le hpreview
          · simp [classifyResponse, classifyStatus_eq_succeeded.mp hsucceeded]
        · exact httpExcept_bounded hduration hdispatch
    | handler reply =>
      simp only [dispatchJob, handlerExecute] at hdispatch
      split at hdispatch
      · cases hdispatch
        exact ⟨hduration, by simp [handlerResult], by simp [handlerResult], by simp [handlerResult]⟩
      · cases hdispatch
        exact ⟨hduration, by simp [handlerResult], by simp [handlerResult], by simp [handlerResult]⟩
      · split at hdispatch <;> cases hdispatch <;>
          exact ⟨hduration, by simp [handlerResult], by simp [handlerResult], by simp [handlerResult]⟩
  · split_ifs at h
    cases h
    exact ⟨by simp [exceptionResult], by simp [exceptionResult], by simp [exceptionResult], by simp [exceptionResult]⟩

/-- A text parameter is accepted exactly if its text is storable, and keeps its length. -/
theorem textParam_eq_some_iff {param : Option PyStr} :
    (∃ value, textParam param = some value) ↔ ∀ text ∈ param, Storable text := by
  cases param with
  | none => simp [textParam]
  | some text => by_cases hstorable : Storable text <;> simp [textParam, hstorable]

/-- A parameter is as long as its text. -/
theorem length_of_textParam {param : Option PyStr} {value : Option String}
    (h : textParam param = some value)
    {n : ℕ} (hparam : ∀ text ∈ param, text.length ≤ n) : ∀ text ∈ value, text.length ≤ n := by
  cases param with
  | none =>
    obtain rfl : none = value := by simpa [textParam] using h
    simp
  | some text =>
    simp only [textParam] at h
    split_ifs at h
    obtain rfl : some (toText text) = value := by simpa using h
    simpa using hparam

/-- Below 2^31 a number fits an integer column. -/
theorem isInt4_ofNat {n : ℕ} (h : n < 2147483648) : IsInt4 n := by
  unfold IsInt4
  omega

/-- So does a status of three digits. -/
theorem isInt4_status {responseStatus : Option ℕ} (h : ∀ n ∈ responseStatus, n < 1000) :
    ∀ n ∈ responseStatus.map Int.ofNat, IsInt4 n := by
  intro n hn
  obtain ⟨status, hstatus, rfl⟩ := Option.map_eq_some_iff.mp hn
  exact isInt4_ofNat (Nat.lt_trans (h status hstatus) (by decide))

variable {t : TxnId} {now : Timestamp} {x : Execution} {retryDelaySeconds : Int} {result : ExecutorResult}
  {entry : JobEntry}

/-- The repository call is made exactly if the texts are storable. -/
theorem recordOp_eq_some_iff (hbounded : result.Bounded) :
    (∃ op, recordOp retryDelaySeconds result = some op) ↔ result.TextsStorable := by
  unfold recordOp
  constructor
  · rintro ⟨op, hop⟩
    split_ifs at hop with hsucceeded
    · obtain ⟨preview, hpreview, -⟩ := Option.bind_eq_some_iff.mp hop
      obtain ⟨htype, hmessage⟩ := hbounded.quiet hsucceeded
      exact ⟨by simp [htype], by simp [hmessage], textParam_eq_some_iff.mp ⟨preview, hpreview⟩⟩
    · obtain ⟨errorType, htype, hop⟩ := Option.bind_eq_some_iff.mp hop
      obtain ⟨errorMessage, hmessage, hop⟩ := Option.bind_eq_some_iff.mp hop
      obtain ⟨preview, hpreview, -⟩ := Option.bind_eq_some_iff.mp hop
      exact ⟨textParam_eq_some_iff.mp ⟨_, htype⟩, textParam_eq_some_iff.mp ⟨_, hmessage⟩,
        textParam_eq_some_iff.mp ⟨_, hpreview⟩⟩
  · rintro ⟨htype, hmessage, hpreview⟩
    obtain ⟨errorType, htype⟩ := textParam_eq_some_iff.mpr htype
    obtain ⟨errorMessage, hmessage⟩ := textParam_eq_some_iff.mpr hmessage
    obtain ⟨preview, hpreview⟩ := textParam_eq_some_iff.mpr hpreview
    split_ifs
    · exact ⟨_, by rw [hpreview]; rfl⟩
    · exact ⟨_, by rw [htype, hmessage, hpreview]; rfl⟩

/-- The attempt row of a result is accepted by its columns. -/
theorem insertAttempt_accepted (hcount : 0 < x.job.attemptCount) (hbounded : result.Bounded)
    {preview : Option String} (hpreview : textParam result.responseBodyPreview = some preview)
    (status : AttemptStatus) (errorType errorMessage : Option String) :
    (insertAttempt now x.job x.worker status result.durationMs errorType errorMessage
      (result.responseStatus.map Int.ofNat) preview).Accepted :=
  ⟨hcount, isInt4_ofNat hbounded.duration, isInt4_status hbounded.status,
    length_of_textParam hpreview hbounded.preview⟩

/-- What a call that is made leaves of the job is accepted by the columns: a success completes the job,
any other outcome fails it. -/
theorem recordOp_accepted (t : TxnId) (now : Timestamp) (entry : JobEntry)
    (hcount : 0 < x.job.attemptCount)
    (hbounded : result.Bounded) {op : CallOp} (hop : recordOp retryDelaySeconds result = some op) :
    ∃ after, (callChange t now x entry op).version = some after ∧ RecordAccepted after ∧
      if result.outcome = .succeeded then ∃ args, after = completeJob now x.job x.worker args entry
      else ∃ args, after = failJob now x.job x.worker args entry := by
  unfold recordOp at hop
  split_ifs at hop with hsucceeded
  · obtain ⟨preview, hpreview, hop⟩ := Option.bind_eq_some_iff.mp hop
    cases hop
    refine ⟨_, rfl, ⟨isInt4_status hbounded.status, ?_⟩, ?_⟩
    · simpa [completeJob] using insertAttempt_accepted hcount hbounded hpreview .succeeded none none
    · rw [if_pos hsucceeded]
      exact ⟨_, rfl⟩
  · obtain ⟨errorType, -, hop⟩ := Option.bind_eq_some_iff.mp hop
    obtain ⟨errorMessage, -, hop⟩ := Option.bind_eq_some_iff.mp hop
    obtain ⟨preview, hpreview, hop⟩ := Option.bind_eq_some_iff.mp hop
    cases hop
    refine ⟨_, rfl, ⟨isInt4_status hbounded.status, ?_⟩, ?_⟩
    · simpa [failJob] using insertAttempt_accepted hcount hbounded hpreview _ errorType errorMessage
    · rw [if_neg hsucceeded]
      exact ⟨_, rfl⟩

/-- A bounded result is recorded exactly if its texts are storable. -/
theorem recordResult_eq_some_iff (hcount : 0 < x.job.attemptCount) (hbounded : result.Bounded) :
    (∃ after, recordResult t now x retryDelaySeconds result entry = some after) ↔ result.TextsStorable := by
  rw [← recordOp_eq_some_iff hbounded]
  constructor
  · rintro ⟨after, hafter⟩
    obtain ⟨op, hop, -⟩ := Option.bind_eq_some_iff.mp hafter
    exact ⟨op, hop⟩
  · rintro ⟨op, hop⟩
    obtain ⟨after, hversion, haccepted, -⟩ := recordOp_accepted t now entry hcount hbounded hop
    refine ⟨after, ?_⟩
    simp only [recordResult, hop, hversion, Option.bind_eq_bind, Option.bind_some, if_pos haccepted]

/-- ASCII without the null character. -/
def isPlainAscii (text : List Char) : Bool := text.all fun c => decide (0 < c.toNat ∧ c.toNat < 0x80)

/-- Plain ASCII text is storable. -/
theorem storable_ofString {s : String} (h : isPlainAscii s.toList = true) :
    Storable (ofString s) := by
  intro c hc
  obtain ⟨d, hd, rfl⟩ := List.mem_map.mp hc
  obtain ⟨hpos, hlt⟩ := of_decide_eq_true (List.all_eq_true.mp h d hd)
  have hval : (codePoint d.toNat).val = d.toNat := codePoint_val (Nat.lt_trans hlt (by decide))
  refine ⟨?_, ?_⟩
  · omega
  · unfold IsSurrogate
    omega

/-- An execution was started by a claim of its worker. -/
theorem Reachable.claim_of_execution {s : State} (h : Reachable s) (hx : x ∈ s.executions) :
    ∃ now leaseSeconds row, RowOk row ∧ Claimable now row ∧ x.job = claimUpdate now x.worker leaseSeconds row := by
  obtain ⟨c, hc, leaseSeconds, hevent⟩ := h.inv.executions x hx
  have hmem : c ∈ jobLog s.log x.job.id := List.mem_filter.mpr ⟨hc, by simp [hevent, JobEvent.jobId]⟩
  obtain ⟨pre, post, hsplit⟩ := List.append_of_mem hmem
  have hhistory := h.jobHistory x.job.id
  rw [hsplit] at hhistory
  obtain ⟨before, after, hbefore, hacts, -⟩ := hhistory.split
  obtain ⟨t, now, event⟩ := c
  obtain rfl : event = _ := hevent
  cases hacts with
  | claimed hclaim hx => exact ⟨now, leaseSeconds, _, hbefore.rowOk, hclaim, congrArg Execution.job hx⟩

/-- The claim that started an execution has counted it. -/
theorem Reachable.attemptCount_pos {s : State} (h : Reachable s) (hx : x ∈ s.executions) :
    0 < x.job.attemptCount := by
  obtain ⟨now, leaseSeconds, row, hrow, -, hjob⟩ := h.claim_of_execution hx
  have hnonneg := hrow.count_nonneg
  rw [hjob]
  change 0 < row.attemptCount + 1
  omega

/-- A registry with UTF-8 alone. -/
def utf8Codecs : Codecs where
  decode encoding bytes :=
    if encoding = "utf-8" then .ok (decodeUtf8 bytes)
    else .error ⟨.other, ofString "LookupError", ofString "not a text encoding", storable_ofString (by decide)⟩
  utf8 bytes := rfl
  raises encoding bytes exc h := by
    split_ifs at h
    cases h
    rfl
  length_le encoding bytes text h := by
    split_ifs at h
    cases h
    exact length_decodeUtf8_le bytes

end PgRelay
