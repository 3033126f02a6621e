import PgRelay.HttpExecutor

/-!
# The body of a request

A body is stored as the text that the user sent, and decoded when the job is executed. Text with a wrong
alphabet or padding fails the job for good. Text that is not ASCII makes the decoder raise another error, which
no clause of the executor names, and the runner takes it for a failure to be retried.
-/

namespace PgRelay

open PyText

/-- A host passes the allow-list of a worker. -/
def HostAllowed (library : Library) (worker : Settings) (url : PyStr) : Prop :=
  ∃ hostname, extractUrlHostname library.tables url = .ok hostname ∧
    AllowedHost library.tables.lower (worker.getAllowedHosts library.tables.lower) hostname

/-- The outcome is a permanent failure, and recording it moves the job to the dead letters. -/
def DeadLettered (codecs : Codecs) (behaviour : Behaviour) (durationMs : ℕ) (x : Execution) : Prop :=
  ∃ result, executionResult codecs behaviour durationMs = .ok result ∧ result.outcome = .permanentFailure ∧
    ∀ t now retryDelaySeconds entry, ∃ after,
      recordResult t now x retryDelaySeconds result entry = some after ∧ after.row.status = .deadLetter

/-- A body that can be decoded is sent as it is decoded; one that cannot be decoded is never sent, and costs the
job its life. -/
structure HandlesBody (uuid : UuidText) (library : Library) (worker : Settings) (x : Execution) (url body : PyStr) :
    Prop where
  sent : ∀ bytes, b64decode body = .ok bytes →
    (∀ request, prepareRequest uuid library worker x.job = .ok request → request.content = some bytes) ∧
      (HostAllowed library worker url → ∃ request, prepareRequest uuid library worker x.job = .ok request)
  refused : ∀ e, b64decode body = .error e →
    (∃ exc, prepareRequest uuid library worker x.job = .error exc) ∧
      ∀ codecs client durationMs, durationMs < 2147483648 →
        DeadLettered codecs (httpBehaviour uuid library worker client x.job) durationMs x

/-! ## Preparing the request -/

section Prepare

variable (uuid : UuidText) {library : Library} (worker : Settings) {job : JobRow} {payload : HttpJobPayload}
  {hostname : PyStr}

/-- What becomes of the content, for a payload that the service has accepted. -/
theorem prepareRequest_content (hread : readPayload library.pydantic job.payload = some payload)
    (hvalid : ValidHeaders payload.headers.val) (hhost : extractUrlHostname library.tables payload.url = .ok hostname) :
    (prepareRequest uuid library worker job).map HttpRequest.content =
      if AllowedHost library.tables.lower (worker.getAllowedHosts library.tables.lower) hostname then
        httpContent payload
      else .error (validationError (ofString "HTTP target host is not allowed")) := by
  unfold prepareRequest
  simp only [hread, validateHeaders_eq_ok.mpr hvalid, hhost, bind, Except.bind]
  split_ifs with hallowed
  · rw [validateAllowedHost_eq_ok.mpr hallowed]
    cases httpContent payload <;> rfl
  · have hrefused : validateAllowedHost library.tables.lower hostname
        (worker.getAllowedHosts library.tables.lower) =
          .error (validationError (ofString "HTTP target host is not allowed")) := by
      rw [validateAllowedHost, if_pos]
      simpa [AllowedHost] using hallowed
    rw [hrefused]
    rfl

end Prepare

/-- A mapped result fails as the result does. -/
theorem map_eq_error {α β : Type} {x : Except PyException α} {f : α → β} {exc : PyException} :
    x.map f = .error exc ↔ x = .error exc := by
  cases x <;> simp [Except.map]

/-- A mapped result is there if the result is. -/
theorem map_eq_ok {α β : Type} {x : Except PyException α} {f : α → β} {b : β} :
    x.map f = .ok b ↔ ∃ a, x = .ok a ∧ f a = b := by
  cases x <;> simp [Except.map]

/-! ## Recording the outcome -/

variable {codecs : Codecs} {exc : PyException} {durationMs : ℕ} {x : Execution}

/-- A permanent failure whose texts are storable is recorded, and leaves the job dead. -/
theorem recordResult_permanentFailure {t : TxnId} {now : Timestamp} {retryDelaySeconds : Int} {entry : JobEntry}
    {result : ExecutorResult} (hcount : 0 < x.job.attemptCount) (hbounded : result.Bounded)
    (hstorable : result.TextsStorable) (houtcome : result.outcome = .permanentFailure) :
    ∃ after, recordResult t now x retryDelaySeconds result entry = some after ∧ after.row.status = .deadLetter := by
  obtain ⟨after, hafter⟩ := (recordResult_eq_some_iff hcount hbounded).mpr hstorable
  refine ⟨after, hafter, ?_⟩
  obtain ⟨op, hop, hafter⟩ := Option.bind_eq_some_iff.mp hafter
  obtain ⟨written, hversion, hafter⟩ := Option.bind_eq_some_iff.mp hafter
  split_ifs at hafter
  obtain rfl := Option.some.inj hafter
  unfold recordOp at hop
  rw [if_neg (by simp [houtcome])] at hop
  obtain ⟨errorType, -, hop⟩ := Option.bind_eq_some_iff.mp hop
  obtain ⟨errorMessage, -, hop⟩ := Option.bind_eq_some_iff.mp hop
  obtain ⟨preview, -, hop⟩ := Option.bind_eq_some_iff.mp hop
  obtain rfl := Option.some.inj hop
  obtain rfl := Option.some.inj hversion
  simp [failJob, failUpdate, shouldRetry, houtcome]

/-- A `ValidationError` before the request ends the job. -/
theorem deadLettered_of_validationError (hcount : 0 < x.job.attemptCount) (hcls : exc.cls = .validationError)
    (hmessage : Storable exc.message) (hduration : durationMs < 2147483648) :
    DeadLettered codecs (.http (.raised exc)) durationMs x := by
  have hresult : executionResult codecs (.http (.raised exc)) durationMs =
      .ok (httpFailure .permanentFailure exc durationMs) := by
    simp [executionResult, dispatchJob, httpExecute, httpExcept, hcls, catchException]
  have hbounded := executionResult_bounded hduration hresult
  have hstorable : (httpFailure .permanentFailure exc durationMs).TextsStorable := by
    refine ⟨?_, ?_, by simp [httpFailure]⟩
    · rintro text ⟨⟩
      exact exc.typeName_storable
    · rintro text ⟨⟩
      exact fun c hc => hmessage c (List.mem_of_mem_take hc)
  exact ⟨_, hresult, rfl, fun t now retryDelaySeconds entry =>
    recordResult_permanentFailure hcount hbounded hstorable rfl⟩

/-- An exception that no clause names is a failure to be retried. -/
theorem not_deadLettered_of_other (hcls : exc.cls = .other) :
    ¬ DeadLettered codecs (.http (.raised exc)) durationMs x := by
  rintro ⟨result, hresult, houtcome, -⟩
  have hretried : executionResult codecs (.http (.raised exc)) durationMs = .ok (exceptionResult exc) := by
    simp [executionResult, dispatchJob, httpExecute, httpExcept, hcls, catchException, ExceptionClass.isException]
  obtain rfl := Except.ok.inj (hretried.symm.trans hresult)
  cases houtcome

/-! ## Which bodies are handled -/

variable {uuid : UuidText} {library : Library} {settings worker : Settings} {forms : FloatForms}
  {request : EnqueueInput} {inserted : JobInsert} {s : State} {url body : PyStr}

/-- A body is handled if a `ValidationError` keeps it from being sent. -/
theorem handlesBody_of_validationError {message : PyStr}
    (hprepare : prepareRequest uuid library worker x.job = .error (validationError message))
    (hmessage : Storable message) (hcount : 0 < x.job.attemptCount)
    (hkept : (∃ e, b64decode body = .error e) ∨ ¬ HostAllowed library worker url) :
    HandlesBody uuid library worker x url body := by
  refine ⟨fun bytes hbytes => ⟨by simp [hprepare], fun hallowed => ?_⟩, fun e he => ⟨⟨_, hprepare⟩, ?_⟩⟩
  · rcases hkept with ⟨e, he⟩ | hrefused
    · cases he.symm.trans hbytes
    · exact absurd hallowed hrefused
  · intro codecs client durationMs hduration
    rw [httpBehaviour, hprepare]
    exact deadLettered_of_validationError hcount rfl hmessage hduration

/-- A body in a delivery is handled exactly if it is ASCII or its host is refused before. -/
theorem Delivers.handlesBody_iff (uuid : UuidText) (worker : Settings)
    (h : Delivers library settings forms request inserted s x) {user payload : HttpJobPayload}
    (hrules : HttpRules library settings user) (hread : readPayload library.pydantic x.job.payload = some payload)
    (hsame : user.Same forms payload) {body : BoundedStr 0 10485760} (hbody : user.bodyBase64 = some body) :
    HandlesBody uuid library worker x user.url body ↔ IsAscii body.val ∨ ¬ HostAllowed library worker user.url := by
  have hcount := h.reachable.attemptCount_pos h.execution
  obtain ⟨hostname, hhost, -⟩ := hrules.host
  have hcontent := prepareRequest_content uuid worker hread
    (hrules.validHeaders hsame) (hsame.url ▸ hhost)
  have hstored : payload.bodyBase64 = some body := hsame.bodyBase64.trans hbody
  have hallowed : HostAllowed library worker user.url ↔
      AllowedHost library.tables.lower (worker.getAllowedHosts library.tables.lower) hostname := by
    constructor
    · rintro ⟨hostname', hhost', hallowed⟩
      rwa [← Except.ok.inj (hhost.symm.trans hhost')] at hallowed
    · exact fun hallowed => ⟨hostname, hhost, hallowed⟩
  split_ifs at hcontent with hpasses
  · cases hdecode : b64decode body.val with
    | ok bytes =>
      have hascii : IsAscii body.val := by
        by_contra hnot
        cases hdecode.symm.trans (b64decode_eq_nonAscii.mpr hnot)
      simp only [httpContent, hstored, hdecode] at hcontent
      obtain ⟨sent, hprepare, hsent⟩ := map_eq_ok.mp hcontent
      refine iff_of_true ⟨fun bytes' hbytes => ⟨fun sent' hprepare' => ?_, fun _ => ⟨sent, hprepare⟩⟩, ?_⟩ (.inl hascii)
      · obtain rfl := Except.ok.inj (hprepare.symm.trans hprepare')
        rw [hsent, Except.ok.inj (hdecode.symm.trans hbytes)]
      · intro e he
        cases hdecode.symm.trans he
    | error e =>
      cases e with
      | binascii =>
        have hascii : IsAscii body.val := by
          by_contra hnot
          cases hdecode.symm.trans (b64decode_eq_nonAscii.mpr hnot)
        simp only [httpContent, hstored, hdecode] at hcontent
        exact iff_of_true (handlesBody_of_validationError (map_eq_error.mp hcontent)
          (storable_ofString (by decide)) hcount (.inl ⟨_, hdecode⟩)) (.inl hascii)
      | nonAscii =>
        simp only [httpContent, hstored, hdecode] at hcontent
        have hraised := map_eq_error.mp hcontent
        refine iff_of_false (fun hhandles => ?_) ?_
        · have hdead := (hhandles.refused _ hdecode).2 utf8Codecs (fun _ => .response 200 none []) 0 (by decide)
          rw [httpBehaviour, hraised] at hdead
          exact not_deadLettered_of_other rfl hdead
        · rintro (hascii | hrefused)
          · exact b64decode_eq_nonAscii.mp hdecode hascii
          · exact hrefused (hallowed.mpr hpasses)
  · have hrefused := map_eq_error.mp hcontent
    have hnot : ¬ HostAllowed library worker user.url := fun h => hpasses (hallowed.mp h)
    exact iff_of_true (handlesBody_of_validationError hrefused (storable_ofString (by decide)) hcount (.inr hnot))
      (.inr hnot)

/-- The body of a job is handled exactly if it is ASCII text, unless the worker refuses the host before it comes to
the body. -/
theorem requestBody_handled_iff (uuid : UuidText) (worker : Settings)
    (h : Delivers library settings forms request inserted s x) :
    ∃ user, RequestPayload library request user ∧ ∀ body ∈ user.bodyBase64,
      (HandlesBody uuid library worker x user.url body ↔
        IsAscii body.val ∨ ¬ HostAllowed library worker user.url) := by
  obtain ⟨user, payload, huser, hrules, hread, hsame⟩ := h.payload
  exact ⟨user, huser, fun body hbody => h.handlesBody_iff uuid worker hrules hread hsame hbody⟩

/-- A user whose body has an accent. -/
def accentUser : HttpJobPayload := sampleUser noHeaders (some ⟨ofString "é", by decide⟩)

/-- The body `é` is accepted, inserted and executed. -/
theorem delivers_accent : ∃ s x inserted,
    Delivers .jsonOnly .smallest verbatimForms (.model (httpRequest accentUser.modelDump)) inserted s x := by
  have hok : (validateRequest .jsonOnly .smallest (.model (httpRequest accentUser.modelDump))).isOk = true := by
    decide +kernel
  have hsent : SentAs verbatimForms ((httpRequest accentUser.modelDump).insert accentUser.modelDump)
      (sampleJob [] [("body_base64", .str "é")] none) := ⟨rfl, rfl, rfl, rfl⟩
  obtain ⟨x, hx⟩ := exists_delivers hok rfl rfl hsent rfl (by decide +kernel)
  exact ⟨_, x, _, hx⟩

/-- The condition for this body. -/
theorem requestBody_handled_iff_accent : ∃ x user,
    RequestPayload .jsonOnly (.model (httpRequest accentUser.modelDump)) user ∧ ∀ body ∈ user.bodyBase64,
      (HandlesBody oneUuid .jsonOnly .smallest x user.url body ↔
        IsAscii body.val ∨ ¬ HostAllowed .jsonOnly .smallest user.url) := by
  obtain ⟨s, x, inserted, hx⟩ := delivers_accent
  obtain ⟨user, huser, hiff⟩ := requestBody_handled_iff oneUuid .smallest hx
  exact ⟨x, user, huser, hiff⟩

/-- This body is not handled: the `ValueError` of its decoding ends as a retryable failure. -/
theorem not_handlesBody_accent : ¬ ∀ uuid library settings worker forms request inserted s x user,
    Delivers library settings forms request inserted s x → RequestPayload library request user →
      ∀ body ∈ user.bodyBase64, HandlesBody uuid library worker x user.url body.val := by
  intro hall
  obtain ⟨s, x, inserted, hx⟩ := delivers_accent
  obtain ⟨user, payload, huser, hrules, hread, hsame⟩ := hx.payload
  have hmodel : user = accentUser := by
    obtain ⟨validated, hvalidated, hmodel⟩ := huser
    obtain rfl := Except.ok.inj hvalidated
    exact Option.some.inj (hmodel.symm.trans accentUser.modelValidate_modelDump)
  have hbody : user.bodyBase64 = some ⟨ofString "é", by decide⟩ := by
    rw [hmodel]
    rfl
  have hhandles := hall oneUuid _ _ .smallest _ _ _ _ _ user hx huser _ hbody
  rcases (hx.handlesBody_iff oneUuid .smallest hrules hread hsame hbody).mp hhandles with hascii | hrefused
  · exact absurd hascii (by decide)
  · obtain ⟨hostname, hhost, hallowed⟩ := hrules.host
    exact hrefused ⟨hostname, hhost, hallowed⟩

end PgRelay
