import PgRelay.PayloadSize

/-!
# What an enqueue raises

A request that is not accepted should be answered with the `ValidationError` of PgRelay, before any
statement is executed. The errors of pydantic are translated into it. Three others are not: those of
`json.dumps`, for a value that JSON cannot write or that is too deep, that of the encoding, for a surrogate,
and that of `urlparse`. A check that fails earlier keeps a later one from being reached, so which of them
can escape depends on the order of the checks.
-/

namespace PgRelay

open PyText

variable {library : Library} {settings : Settings} {request : EnqueueInput}

/-- The rules that a job handed to `insert_job` has to meet. -/
structure JobRules (library : Library) (settings : Settings) (job : JobInsert) : Prop where
  queueName : ValidQueueName job.queueName
  sizes : StoredWithinLimits library settings job
  timeout : job.timeoutSeconds ≤ settings.httpMaxTimeoutSeconds.val
  http : job.kind = .http → ∃ model, HttpJobPayload.modelValidate library.pydantic job.payload = some model ∧
    HttpRules library settings model

/-- An enqueue raises a `ValidationError` and leaves the session as it was, or it has called `insert_job` with a
job that meets the rules. -/
def RejectsOrInserts (library : Library) (settings : Settings) (request : EnqueueInput) : Prop :=
  ∀ (S R : Type) (insertJob : JobInsert → S → Except PyException R × S) (session : S),
    (∃ exc, exc.cls = .validationError ∧
      EnqueueService.enqueue library settings insertJob request session = (.error exc, session)) ∨
    ∃ job, JobRules library settings job ∧
      EnqueueService.enqueue library settings insertJob request session = insertJob job session

/-- The checks of an HTTP payload come to no URL that `urlparse` refuses, and what they accept leaves room for
its defaults. -/
def PayloadChecked (library : Library) (settings : Settings) (payload : PyDict) : Prop :=
  ∀ model, HttpJobPayload.modelValidate library.pydantic payload = some model → ValidHeaders model.headers.val →
    urlparse library.tables model.url ≠ none ∧ (HttpRules library settings model → LeavesRoom settings payload)

/-- Every value that is measured has a text, and every URL that is parsed is one that `urlparse` takes. A value
is measured if those before it are within their limits. -/
def ChecksComeThrough (library : Library) (settings : Settings) (validated : EnqueueJobRequest) : Prop :=
  Dumpable library.levels validated.payload.value ∧
    (Fits library.levels validated.payload.value settings.maxPayloadBytes →
      Dumpable library.levels validated.headers.value ∧
        (Fits library.levels validated.headers.value settings.maxHeadersBytes →
          Dumpable library.levels validated.metadata.value ∧
            (Fits library.levels validated.metadata.value settings.maxMetadataBytes →
              validated.timeoutSeconds.val ≤ settings.httpMaxTimeoutSeconds.val → validated.kind = .http →
                PayloadChecked library settings validated.payload)))

/-- Nothing but a `ValidationError` comes of reading a request. -/
theorem translated_readRequest (library : Library) (request : EnqueueInput) :
    Translated (readRequest library request) := by
  cases request with
  | model validated => exact translated_ok _
  | dict request =>
    have hread : Translated (EnqueueJobRequest.modelValidate library.pydantic request) := by
      unfold EnqueueJobRequest.modelValidate
      dsimp only
      split
      · split
        · exact translated_bind.mpr ⟨translated_validateQueueName _, fun _ _ => translated_ok _⟩
        · exact translated_ok _
      · exact translated_ok _
    rw [readRequest]
    cases hresult : EnqueueJobRequest.modelValidate library.pydantic request with
    | error exc =>
      rintro exc' ⟨⟩
      exact hread exc hresult
    | ok result =>
      cases result with
      | none => exact translated_error _
      | some validated => exact translated_ok _

/-- Which errors escape from the checks of a request. -/
theorem translated_validateRequest : Translated (validateRequest library settings request) ↔
    ∀ validated, readRequest library request = .ok validated → ValidQueueName validated.queueName →
      Dumpable library.levels validated.payload.value ∧
        (Fits library.levels validated.payload.value settings.maxPayloadBytes →
          Dumpable library.levels validated.headers.value ∧
            (Fits library.levels validated.headers.value settings.maxHeadersBytes →
              Dumpable library.levels validated.metadata.value ∧
                (Fits library.levels validated.metadata.value settings.maxMetadataBytes →
                  validated.timeoutSeconds.val ≤ settings.httpMaxTimeoutSeconds.val →
                    Translated (storedPayload library settings validated.kind validated.payload)))) := by
  have hunit {x : Except PyException Unit} {P Q : Prop} (hx : x = .ok () ↔ Q) : (∀ a, x = .ok a → P) ↔ (Q → P) := by
    rw [← hx]
    exact ⟨fun h => h (), fun h a => h⟩
  have hpure (job : JobInsert) : Translated (pure job) := translated_ok job
  simp only [validateRequest, translated_bind, translated_readRequest, translated_validateQueueName,
    translated_validateSize, translated_validateTimeout, true_and, hunit validateQueueName_eq_ok,
    hunit validateSize_eq_ok, hunit validateTimeout_eq_ok, hpure, implies_true, and_true, Fits]

/-- Apart from the size of a normalised payload, an accepted job meets the rules. -/
theorem jobRules_iff {job : JobInsert} (h : validateRequest library settings request = .ok job) :
    JobRules library settings job ↔ StoredWithinLimits library settings job := by
  refine ⟨fun hrules => hrules.sizes, fun hsizes => ?_⟩
  obtain ⟨validated, stored, haccepts, rfl⟩ := validateRequest_eq_ok.mp h
  refine ⟨haccepts.queueName, hsizes, haccepts.timeout, fun hkind => ?_⟩
  have hstored := haccepts.stored
  rw [show validated.kind = .http from hkind] at hstored
  obtain ⟨model, -, hrules, rfl⟩ := validateHttpPayload_eq_ok.mp hstored
  exact ⟨model, model.modelValidate_modelDump, hrules⟩

/-- Whatever the repository does, what counts is the result of the validation. -/
theorem rejectsOrInserts_iff : RejectsOrInserts library settings request ↔
    Translated (validateRequest library settings request) ∧
      ∀ job, validateRequest library settings request = .ok job → JobRules library settings job := by
  constructor
  · intro h
    -- A repository that notes the jobs it is called with tells the cases apart.
    have hnoted := h (List JobInsert) Unit (fun job session => (.ok (), job :: session)) []
    unfold EnqueueService.enqueue at hnoted
    cases hresult : validateRequest library settings request with
    | error exc =>
      rw [hresult] at hnoted
      refine ⟨?_, by simp⟩
      rcases hnoted with ⟨exc', hcls, heq⟩ | ⟨job, -, heq⟩
      · rintro exc'' ⟨⟩
        obtain rfl : exc = exc' := by simpa using heq
        exact hcls
      · simp at heq
    | ok job =>
      rw [hresult] at hnoted
      refine ⟨translated_ok job, ?_⟩
      rintro job' ⟨⟩
      rcases hnoted with ⟨exc, -, heq⟩ | ⟨job', hrules, heq⟩
      · simp at heq
      · obtain rfl : job = job' := by simpa using heq
        exact hrules
  · rintro ⟨htranslated, hrules⟩ S R insertJob session
    unfold EnqueueService.enqueue
    cases hresult : validateRequest library settings request with
    | error exc => exact .inl ⟨exc, htranslated exc hresult, rfl⟩
    | ok job => exact .inr ⟨job, hrules job hresult, rfl⟩

/-- An enqueue rejects a request with a `ValidationError` or inserts a job that meets the rules, exactly if
the checks of the request come through. -/
theorem rejectsOrInserts_iff_checksComeThrough (library : Library) (settings : Settings) (request : EnqueueInput) :
    RejectsOrInserts library settings request ↔
      ∀ validated, readRequest library request = .ok validated → ValidQueueName validated.queueName →
        ChecksComeThrough library settings validated := by
  rw [rejectsOrInserts_iff, translated_validateRequest]
  constructor
  · rintro ⟨htranslated, hrules⟩ validated hread hqueue
    obtain ⟨hpayload, hrest⟩ := htranslated validated hread hqueue
    refine ⟨hpayload, fun hfits => ?_⟩
    obtain ⟨hheaders, hrest⟩ := hrest hfits
    refine ⟨hheaders, fun hfits' => ?_⟩
    obtain ⟨hmetadata, hrest⟩ := hrest hfits'
    refine ⟨hmetadata, fun hfits'' htimeout hkind model hmodel hvalid => ?_⟩
    have hstored := hrest hfits'' htimeout
    rw [hkind] at hstored
    refine ⟨translated_validateHttpPayload.mp hstored model hmodel hvalid, fun hhttp => ?_⟩
    have haccepts : Accepts library settings request validated model.modelDump := by
      refine ⟨hread, hqueue, hfits, hfits', hfits'', htimeout, ?_⟩
      rw [hkind]
      exact validateHttpPayload_eq_ok.mpr ⟨model, hmodel, hhttp, rfl⟩
    have hok := validateRequest_eq_ok.mpr ⟨validated, _, haccepts, rfl⟩
    exact (storedWithinLimits_iff hok).mp (hrules _ hok).sizes validated hread hkind
  · intro hcheck
    refine ⟨fun validated hread hqueue => ?_, fun job hok => ?_⟩
    · obtain ⟨hpayload, hrest⟩ := hcheck validated hread hqueue
      refine ⟨hpayload, fun hfits => ⟨(hrest hfits).1, fun hfits' => ⟨((hrest hfits).2 hfits').1, ?_⟩⟩⟩
      intro hfits'' htimeout
      have hhttp := ((hrest hfits).2 hfits').2 hfits'' htimeout
      cases hkind : validated.kind with
      | handler => exact translated_ok _
      | http => exact translated_validateHttpPayload.mpr fun model hmodel hvalid => (hhttp hkind model hmodel hvalid).1
    · refine (jobRules_iff hok).mpr ((storedWithinLimits_iff hok).mpr fun validated hread hkind => ?_)
      obtain ⟨validated', stored, haccepts, -⟩ := validateRequest_eq_ok.mp hok
      obtain rfl := Except.ok.inj (hread.symm.trans haccepts.read)
      have hstored := haccepts.stored
      rw [hkind] at hstored
      obtain ⟨model, hmodel, hrules, -⟩ := validateHttpPayload_eq_ok.mp hstored
      have hhttp := (((hcheck validated hread haccepts.queueName).2 haccepts.payload).2 haccepts.headers).2
        haccepts.metadata haccepts.timeout hkind model hmodel hrules.headers
      exact hhttp.2 hrules

/-- A request whose URL has a bracket that is never closed. -/
def bracketRequest : PyDict :=
  ⟨[(ofString "kind", text "http"), (ofString "name", text "n"),
    (ofString "payload", .dict [(ofString "url", text "http://[")])], by decide⟩

/-- A `ValueError` of `urlparse` comes out of the enqueue. -/
theorem not_rejectsOrInserts_bracketRequest : ¬ ∀ (library : Library) (settings : Settings) (request : PyDict),
    RejectsOrInserts library settings (.dict request) := by
  intro hall
  have hraised : ((validateRequest .jsonOnly .smallest (.dict bracketRequest)).map fun _ => ()).mapError
      PyException.cls = .error .other := by
    decide +kernel
  have htranslated := (rejectsOrInserts_iff.mp (hall .jsonOnly .smallest bracketRequest)).1
  cases hresult : validateRequest .jsonOnly .smallest (.dict bracketRequest) with
  | ok job => simp [hresult, Except.map, Except.mapError] at hraised
  | error exc =>
    have hcls : exc.cls = .other := by simpa [hresult, Except.map, Except.mapError] using hraised
    exact absurd (hcls.symm.trans (htranslated exc hresult)) (by decide)

end PgRelay
