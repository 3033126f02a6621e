import PgRelay.LeaseFencing

/-!
# The audit trail of a job

An operator reads the outcome of a job from its row: the last error, the last response status, when it
was completed. The attempt rows say the same in detail. Different statements write the two, some of them
both and some of them only the row, yet the row always sums up the attempts. And the attempts are all
there: one for each recorded operation, in their order, as that operation has written it.
-/

namespace PgRelay

open RowStore

/-- The attempts that did not succeed. -/
def failures (attempts : List AttemptRow) : List AttemptRow :=
  attempts.filter fun a => a.status ≠ .succeeded

/-- The attempts that a worker has recorded itself. -/
def answered (attempts : List AttemptRow) : List AttemptRow :=
  attempts.filter fun a => a.status ≠ .leaseExpired

/-- What the columns of a row say about its attempts: its error is that of the last attempt that has
failed, its response that of the last one a worker has recorded. A job that ended with an attempt was
completed when that attempt was recorded and has not been written since. -/
structure OutcomeShown (entry : JobEntry) : Prop where
  errorType : entry.row.lastErrorType = (failures entry.attempts).getLast?.bind AttemptRow.errorType
  errorMessage : entry.row.lastErrorMessage = (failures entry.attempts).getLast?.bind AttemptRow.errorMessage
  response : entry.row.lastResponseStatus = (answered entry.attempts).getLast?.bind AttemptRow.responseStatus
  ended : entry.row.status = .succeeded ∨ entry.row.status = .deadLetter → ∃ a, entry.attempts.getLast? = some a ∧
    (a.status = .succeeded ↔ entry.row.status = .succeeded) ∧ entry.row.completedAt = some a.finishedAt
  settled : entry.row.status.isFinal = true → entry.row.completedAt = some entry.row.updatedAt
  period : ∀ a ∈ entry.attempts, if a.status = .leaseExpired then a.startedAt < a.finishedAt
    else a.startedAt = a.finishedAt - milliseconds a.durationMs

/-- The attempt row that an operation writes, from the operations before it. A report is recorded as its
execution makes it, under the number of the claim that has started the execution; a lost lease under the
attempt it has cost, with the worker that held it and the end it had. -/
def attemptOf (pre : List LogEntry) (op : LogEntry) : Option AttemptRow :=
  match op.event with
  | .completed x args => some (insertAttempt op.now x.job x.worker .succeeded args.durationMs none none
      args.responseStatus args.responseBodyPreview)
  | .failed x args => some (insertAttempt op.now x.job x.worker (if args.timedOut then .timeout else .failed)
      args.durationMs args.errorType args.errorMessage args.responseStatus args.responseBodyPreview)
  | .recovered _ => some {
      attemptNumber := claims pre - returns pre
      workerId := ((currentLease pre).map Execution.worker).getD "unknown"
      status := .leaseExpired
      startedAt := (leaseDeadline pre).getD op.now
      finishedAt := op.now
      durationMs := 0
      errorType := some "lease_expired"
      errorMessage := some "Worker lease expired before completion"
      responseStatus := none
      responseBodyPreview := none }
  | _ => none

/-- The attempt rows that further operations write after those in `pre`, in their order. -/
def attemptsFrom (pre : List LogEntry) : List LogEntry → List AttemptRow
  | [] => []
  | op :: log => (attemptOf pre op).toList ++ attemptsFrom (pre ++ [op]) log

/-- The attempt rows that the operations on a job have written, in their order. -/
def recordedAttempts (log : List LogEntry) : List AttemptRow := attemptsFrom [] log

/-- What is on record of a job after its operations: every attempt that they have recorded, in their order
and nothing else, where no later operation changes an earlier attempt; the count of its attempts, of which
the one in flight alone is not recorded yet; numbers that are those of its attempts; and columns that sum
all this up. -/
structure AuditTrail (log : List LogEntry) (entry : JobEntry) : Prop extends OutcomeShown entry where
  attempts : entry.attempts = recordedAttempts log
  kept : ∀ pre, pre <+: log → recordedAttempts pre <+: entry.attempts
  recorded : entry.attempts.length = (recordings log).length
  count : entry.row.attemptCount = claims log - returns log
  tried : (entry.attempts.length : Int) = entry.row.attemptCount - inFlight entry.row
  numbers : ∀ a ∈ entry.attempts, 1 ≤ a.attemptNumber ∧ a.attemptNumber ≤ entry.attempts.length

/-- A success adds no failure. -/
theorem failures_snoc_of_succeeded {attempts : List AttemptRow} {a : AttemptRow} (h : a.status = .succeeded) :
    failures (attempts ++ [a]) = failures attempts := by
  simp [failures, h]

/-- An attempt that has not succeeded is the last failure. -/
theorem getLast?_failures_snoc {attempts : List AttemptRow} {a : AttemptRow} (h : a.status ≠ .succeeded) :
    (failures (attempts ++ [a])).getLast? = some a := by
  simp [failures, h]

/-- A lost attempt has got no answer. -/
theorem answered_snoc_of_leaseExpired {attempts : List AttemptRow} {a : AttemptRow} (h : a.status = .leaseExpired) :
    answered (attempts ++ [a]) = answered attempts := by
  simp [answered, h]

/-- An attempt with a result is the last one that has got an answer. -/
theorem getLast?_answered_snoc {attempts : List AttemptRow} {a : AttemptRow} (h : a.status ≠ .leaseExpired) :
    (answered (attempts ++ [a])).getLast? = some a := by
  simp [answered, h]

/-- An update that leaves the summary and the attempts alone, of a job that is not final. -/
theorem OutcomeShown.of_active {before after : JobEntry} (h : OutcomeShown before)
    (hactive : after.row.status.isFinal = false) (htype : after.row.lastErrorType = before.row.lastErrorType)
    (hmessage : after.row.lastErrorMessage = before.row.lastErrorMessage)
    (hresponse : after.row.lastResponseStatus = before.row.lastResponseStatus)
    (hattempts : after.attempts = before.attempts) : OutcomeShown after where
  errorType := by rw [htype, hattempts, h.errorType]
  errorMessage := by rw [hmessage, hattempts, h.errorMessage]
  response := by rw [hresponse, hattempts, h.response]
  ended hended := by rcases hended with hended | hended <;> rw [hended] at hactive <;> cases hactive
  settled hfinal := by rw [hactive] at hfinal; cases hfinal
  period := by rw [hattempts]; exact h.period

/-- A new attempt row with the outcome that the update has written to the row. -/
theorem OutcomeShown.period_snoc {entry : JobEntry} (h : OutcomeShown entry) {a : AttemptRow}
    (ha : if a.status = .leaseExpired then a.startedAt < a.finishedAt
      else a.startedAt = a.finishedAt - milliseconds a.durationMs) :
    ∀ b ∈ entry.attempts ++ [a], if b.status = .leaseExpired then b.startedAt < b.finishedAt
      else b.startedAt = b.finishedAt - milliseconds b.durationMs := by
  intro b hb
  rcases List.mem_append.mp hb with hold | hnew
  · exact h.period b hold
  · rw [List.mem_singleton.mp hnew]
    exact ha

/-- `complete_job` shows the answer of its attempt and keeps the last error. -/
theorem OutcomeShown.completeJob {entry : JobEntry} (h : OutcomeShown entry) (now : Timestamp) (job : JobRow)
    (worker : WorkerId) (args : CompleteArgs) : OutcomeShown (completeJob now job worker args entry) where
  errorType := by
    rw [PgRelay.completeJob, failures_snoc_of_succeeded rfl]
    exact h.errorType
  errorMessage := by
    rw [PgRelay.completeJob, failures_snoc_of_succeeded rfl]
    exact h.errorMessage
  response := by
    rw [PgRelay.completeJob, getLast?_answered_snoc (by simp [insertAttempt])]
    rfl
  ended _ := ⟨_, List.getLast?_concat, iff_of_true rfl rfl, rfl⟩
  settled _ := rfl
  period := h.period_snoc rfl

/-- `fail_job` shows the error and the answer of its attempt. -/
theorem OutcomeShown.failJob {entry : JobEntry} (h : OutcomeShown entry) (now : Timestamp) (job : JobRow)
    (worker : WorkerId) (args : FailArgs) : OutcomeShown (failJob now job worker args entry) := by
  have hstatus : (insertAttempt now job worker (if args.timedOut then .timeout else .failed) args.durationMs
      args.errorType args.errorMessage args.responseStatus args.responseBodyPreview).status ≠ .succeeded ∧
      (insertAttempt now job worker (if args.timedOut then .timeout else .failed) args.durationMs
      args.errorType args.errorMessage args.responseStatus args.responseBodyPreview).status ≠ .leaseExpired := by
    cases args.timedOut <;> simp [insertAttempt]
  obtain ⟨hfailed, hanswered⟩ := hstatus
  have hrow := failUpdate_status now (shouldRetry job args) args entry.row
  refine ⟨?_, ?_, ?_, fun hended => ⟨_, List.getLast?_concat, iff_of_false hfailed hrow.2, ?_⟩, fun hfinal => ?_,
    h.period_snoc ((if_neg hanswered).mpr rfl)⟩
  · rw [PgRelay.failJob, getLast?_failures_snoc hfailed]
    rfl
  · rw [PgRelay.failJob, getLast?_failures_snoc hfailed]
    rfl
  · rw [PgRelay.failJob, getLast?_answered_snoc hanswered]
    rfl
  · cases hretry : shouldRetry job args with
    | false => simp [PgRelay.failJob, failUpdate, hretry, insertAttempt]
    | true => simp [PgRelay.failJob, failUpdate, hretry] at hended
  · cases hretry : shouldRetry job args with
    | false => simp [PgRelay.failJob, failUpdate, hretry]
    | true => simp [PgRelay.failJob, failUpdate, hretry, JobStatus.isFinal] at hfinal

/-- The recovery shows the error of the lost attempt and keeps the last answer. -/
theorem OutcomeShown.recoverExpiredLease {entry : JobEntry} (h : OutcomeShown entry) {now : Timestamp}
    (hexpired : LeaseExpired now entry.row) : OutcomeShown (recoverExpiredLease now entry) := by
  have hrow := recoverUpdate_status now entry.row
  refine ⟨?_, ?_, ?_, fun hended => ⟨_, List.getLast?_concat, iff_of_false (by simp) hrow.2, ?_⟩, fun hfinal => ?_,
    h.period_snoc ?_⟩
  · rw [PgRelay.recoverExpiredLease, getLast?_failures_snoc (by simp)]
    rfl
  · rw [PgRelay.recoverExpiredLease, getLast?_failures_snoc (by simp)]
    rfl
  · rw [PgRelay.recoverExpiredLease, answered_snoc_of_leaseExpired rfl]
    exact h.response
  · by_cases hmax : entry.row.maxAttempts ≤ entry.row.attemptCount
    · simp [PgRelay.recoverExpiredLease, recoverUpdate, hmax]
    · simp [PgRelay.recoverExpiredLease, recoverUpdate, hmax] at hended
  · by_cases hmax : entry.row.maxAttempts ≤ entry.row.attemptCount
    · simp [PgRelay.recoverExpiredLease, recoverUpdate, hmax]
    · simp [PgRelay.recoverExpiredLease, recoverUpdate, hmax, JobStatus.isFinal] at hfinal
  · -- The deadline has passed when the lease is recovered.
    obtain ⟨deadline, huntil, hlt⟩ := Option.any_eq_true _ _ |>.mp hexpired.2
    simpa [huntil] using hlt

/-- Every operation on a job keeps its row the summary of its attempts. -/
theorem OutcomeShown.step {op : LogEntry} {before after : JobEntry} (h : OutcomeShown before)
    (hacts : JobActs op (some before) (some after)) : OutcomeShown after := by
  cases hacts with
  | claimed hclaim hx =>
    rw [hx]
    exact h.of_active rfl rfl rfl rfl rfl
  | extended howned =>
    refine h.of_active ?_ rfl rfl rfl rfl
    change before.row.status.isFinal = false
    rw [howned.2]
    rfl
  | returned howned => exact h.of_active rfl rfl rfl rfl rfl
  | completed howned => exact h.completeJob _ _ _ _
  | failed howned => exact h.failJob _ _ _ _
  | recovered hexpired => exact h.recoverExpiredLease hexpired
  | cancelled hpending =>
    refine ⟨h.errorType, h.errorMessage, h.response, fun hended => ?_, fun _ => rfl, h.period⟩
    rcases hended with hended | hended <;> cases hended
  | unlinked => exact ⟨h.errorType, h.errorMessage, h.response, h.ended, h.settled, h.period⟩

/-- After any history a job shows the outcome of its attempts. -/
theorem JobHistory.outcomeShown {id : JobId} {log : List LogEntry} {entry : JobEntry}
    (h : JobHistory id log (some entry)) : OutcomeShown entry := by
  refine h.invariant (I := fun _ entry => OutcomeShown entry) (fun op entry hacts => ?_)
    fun log op before after _ _ hacts hbefore => hbefore.step hacts
  cases hacts with
  | inserted hmax =>
    refine ⟨rfl, rfl, rfl, fun hended => ?_, fun hfinal => ?_, fun a ha => ?_⟩
    · rcases hended with hended | hended <;> cases hended
    · cases hfinal
    · cases ha

/-! ## The recorded attempts -/

/-- The rows of the operations up to the last one, and the row of that one. -/
theorem attemptsFrom_snoc (pre log : List LogEntry) (op : LogEntry) :
    attemptsFrom pre (log ++ [op]) = attemptsFrom pre log ++ (attemptOf (pre ++ log) op).toList := by
  induction log generalizing pre with
  | nil => simp [attemptsFrom]
  | cons first log ih => simp [attemptsFrom, ih]

/-- One more operation adds the attempt that it records. -/
@[simp] theorem recordedAttempts_snoc (log : List LogEntry) (op : LogEntry) :
    recordedAttempts (log ++ [op]) = recordedAttempts log ++ (attemptOf log op).toList :=
  attemptsFrom_snoc [] log op

/-- A later operation leaves the recorded attempts as they are. -/
theorem recordedAttempts_prefix (log rest : List LogEntry) :
    recordedAttempts log <+: recordedAttempts (log ++ rest) := by
  induction rest using List.reverseRecOn with
  | nil => exact (congrArg recordedAttempts (List.append_nil log)).symm ▸ List.prefix_refl _
  | append_singleton rest op ih =>
    rw [← List.append_assoc, recordedAttempts_snoc]
    exact ih.trans (List.prefix_append _ _)

/-- Every operation adds the attempt row that it records, and nothing else. -/
theorem JobActs.attempts_eq {log : List LogEntry} {op : LogEntry} {before after : JobEntry}
    (hacts : JobActs op (some before) (some after)) (htally : Tally log before) (hshown : LeaseShown log before) :
    after.attempts = before.attempts ++ (attemptOf log op).toList := by
  cases hacts with
  | @recovered t now id _ hexpired =>
    obtain ⟨x, hx⟩ := Option.ne_none_iff_exists'.mp (hshown.leased.mp hexpired.1)
    simp [PgRelay.recoverExpiredLease, attemptOf, htally.count, hx, hshown.holder x hx, hshown.deadline hexpired.1]
  | completed | failed => rfl
  | _ => exact (List.append_nil _).symm

/-- The attempts of a job are those its operations have recorded. -/
theorem JobHistory.attempts_eq {id : JobId} {log : List LogEntry} {entry : JobEntry}
    (h : JobHistory id log (some entry)) : entry.attempts = recordedAttempts log := by
  refine h.invariant (I := fun log entry => entry.attempts = recordedAttempts log) (fun op entry hacts => ?_)
    fun log op before after hbefore _ hacts hattempts => ?_
  · cases hacts with
    | inserted hmax => rfl
  · rw [hacts.attempts_eq hbefore.tally hbefore.leaseShown, hattempts, recordedAttempts_snoc]

/-- The row that a claim returns counts the attempt it begins. -/
theorem JobHistory.one_le_attemptCount {id : JobId} {log : List LogEntry} {row : Option JobEntry}
    (h : JobHistory id log row) {c : LogEntry} (hc : c ∈ log) {x : Execution} {leaseSeconds : Int}
    (hevent : c.event = .claimed x leaseSeconds) : 1 ≤ x.job.attemptCount := by
  obtain ⟨pre, post, rfl⟩ := List.append_of_mem hc
  obtain ⟨before, after, hbefore, hacts, -⟩ := h.split
  obtain ⟨t, now, event⟩ := c
  obtain rfl : event = _ := hevent
  cases hacts with
  | claimed hclaim hx =>
    rw [hx]
    exact Int.le_add_of_nonneg_left hbefore.rowOk.count_nonneg

/-- A recorded attempt has the number of an attempt of the job. -/
theorem JobHistory.attemptNumber_le {id : JobId} {log : List LogEntry} {op : LogEntry} {before after : JobEntry}
    (h : JobHistory id log (some before)) (hop : Admissible log op) (hacts : JobActs op (some before) (some after))
    {a : AttemptRow} (ha : attemptOf log op = some a) :
    1 ≤ a.attemptNumber ∧ a.attemptNumber ≤ before.attempts.length + 1 := by
  have htally := h.tally
  have hattempts := htally.attempts
  have hreport {x : Execution} (hcaller : op.event.caller = some x) (howned : OwnedBy x.worker before.row) :
      1 ≤ x.job.attemptCount ∧ x.job.attemptCount ≤ before.attempts.length + 1 := by
    obtain ⟨c, hc, leaseSeconds, hevent⟩ := hop.caller x hcaller
    obtain ⟨-, hcount⟩ := h.snapshotsBelow c hc x leaseSeconds hevent
    rw [inFlight_of_leased howned.2] at hattempts hcount
    exact ⟨h.one_le_attemptCount hc hevent, by omega⟩
  cases hacts with
  | completed howned | failed howned =>
    obtain rfl := Option.some.inj ha
    exact hreport rfl howned
  | recovered hexpired =>
    obtain rfl := Option.some.inj ha
    have hpos := h.rowOk.count_pos hexpired.1
    have hcount := htally.count
    rw [inFlight_of_leased hexpired.1] at hattempts
    change 1 ≤ (claims log - returns log : Int) ∧ (claims log - returns log : Int) ≤ _
    omega
  | _ => cases ha

/-- The attempts of a job carry the numbers of its attempts. -/
theorem JobHistory.attemptNumbers {id : JobId} {log : List LogEntry} {entry : JobEntry}
    (h : JobHistory id log (some entry)) :
    ∀ a ∈ entry.attempts, 1 ≤ a.attemptNumber ∧ a.attemptNumber ≤ entry.attempts.length := by
  refine h.invariant (I := fun _ entry => ∀ a ∈ entry.attempts, 1 ≤ a.attemptNumber ∧
    a.attemptNumber ≤ entry.attempts.length) (fun op entry hacts => ?_)
    fun log op before after hbefore hop hacts hnumbers => ?_
  · cases hacts with
    | inserted hmax => exact fun a ha => by cases ha
  · rw [hacts.attempts_eq hbefore.tally hbefore.leaseShown]
    cases hwritten : attemptOf log op with
    | none => simpa using hnumbers
    | some written =>
      intro a ha
      rw [Option.toList_some, List.length_append, List.length_singleton]
      rcases List.mem_append.mp ha with hold | hnew
      · have hnumber := hnumbers a hold
        push_cast
        omega
      · obtain rfl := List.mem_singleton.mp hnew
        exact_mod_cast hbefore.attemptNumber_le hop hacts hwritten

/-- The history of a job is an audit trail. -/
theorem JobHistory.auditTrail {id : JobId} {log : List LogEntry} {entry : JobEntry}
    (h : JobHistory id log (some entry)) : AuditTrail log entry where
  toOutcomeShown := h.outcomeShown
  attempts := h.attempts_eq
  kept := by
    rintro pre ⟨rest, rfl⟩
    rw [h.attempts_eq]
    exact recordedAttempts_prefix pre rest
  recorded := h.tally.recorded.symm
  count := h.tally.count
  tried := h.tally.attempts
  numbers := h.attemptNumbers

/-- A row that can be seen, with the operations that have led to it: a committed one with the committed
operations on the job, or one in the view of an open transaction, whose own operations come on top. -/
inductive SeenAfter (s : State) (id : JobId) : List LogEntry → JobEntry → Prop
  | committed {entry} (hget : s.jobs.get id = some entry) : SeenAfter s id (jobLog s.log id) entry
  | own {t T entry} (hT : s.txns t = some T) (hget : (T.view s).get id = some entry) :
      SeenAfter s id (jobLog (s.log ++ T.changes.map Change.event) id) entry

/-- The rows that can be seen are the visible ones. -/
theorem visible_iff_seenAfter {s : State} {id : JobId} {entry : JobEntry} :
    Visible s id entry ↔ ∃ log, SeenAfter s id log entry := by
  constructor
  · rintro (hget | ⟨t, T, hT, hget⟩)
    · exact ⟨_, .committed hget⟩
    · exact ⟨_, .own hT hget⟩
  · rintro ⟨_, hget | ⟨hT, hget⟩⟩
    · exact .inl hget
    · exact .inr ⟨_, _, hT, hget⟩

/-- In every reachable state the attempt rows of a job are those that its operations have recorded, in their
order, and the columns of the job sum them up; in the committed table and in whatever an open transaction
sees of the job. -/
theorem audit_trail {s : State} (h : Reachable s) {id : JobId} {log : List LogEntry} {entry : JobEntry}
    (hrow : SeenAfter s id log entry) : AuditTrail log entry := by
  cases hrow with
  | committed hget => exact (hget ▸ h.jobHistory id : JobHistory id _ (some entry)).auditTrail
  | own hT hget => exact (hget ▸ h.jobHistory_view hT id : JobHistory id _ (some entry)).auditTrail

/-- Three attempts of two workers, of which the second one lost its lease. -/
theorem audit_trail_triedRun : ∃ entry, (stateAfter 0 triedRun).jobs.get 0 = some entry ∧
    entry.attempts.map (fun a => (a.attemptNumber, a.workerId, a.status)) =
      [(1, "w", .failed), (2, "v", .leaseExpired), (3, "w", .succeeded)] ∧
    AuditTrail (jobLog (stateAfter 0 triedRun).log 0) entry := by
  have hrow : ((stateAfter 0 triedRun).jobs.get 0).map (fun entry =>
      entry.attempts.map fun a => (a.attemptNumber, a.workerId, a.status)) =
      some [(1, "w", .failed), (2, "v", .leaseExpired), (3, "w", .succeeded)] := by
    decide +kernel
  obtain ⟨entry, hget, hattempts⟩ := Option.map_eq_some_iff.mp hrow
  exact ⟨entry, hget, hattempts, audit_trail (reachable_stateAfter 0 triedRun) (.committed hget)⟩

end PgRelay
