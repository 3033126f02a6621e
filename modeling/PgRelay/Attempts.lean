import PgRelay.JobRows

/-!
# The attempt ledger and the retry budget

The counter `attempt_count`, the rows of `pgrelay_attempt` and the committed operations tell the
same story. From this the budget follows: `fail_job` takes its decision on the row its claim
returned, which may be out of date, but the count in an outdated row is never above the count in
the live row while the job is leased.
-/

namespace PgRelay

open RowStore

/-- A claim of the job. -/
def JobEvent.isClaim : JobEvent → Bool
  | .claimed _ _ => true
  | _ => false

/-- A return to pending that took effect. -/
def JobEvent.isReturn : JobEvent → Bool
  | .returned _ => true
  | _ => false

/-- An operation that writes an attempt row. -/
def JobEvent.isRecording : JobEvent → Bool
  | .completed _ _ | .failed _ _ | .recovered _ => true
  | _ => false

/-- The operations that wrote the attempt rows. -/
def recordings (log : List LogEntry) : List LogEntry := log.filter fun op => op.event.isRecording

/-- The recordings of a log are those of its parts. -/
@[simp] theorem recordings_append (log log' : List LogEntry) :
    recordings (log ++ log') = recordings log ++ recordings log' := List.filter_append ..

/-- The number of claims in a log. -/
def claims (log : List LogEntry) : ℕ := log.countP fun op => op.event.isClaim

/-- The number of effective returns in a log. -/
def returns (log : List LogEntry) : ℕ := log.countP fun op => op.event.isReturn

/-- One if the job is leased, else zero. -/
def inFlight (j : JobRow) : Int := if j.status = .leased then 1 else 0

/-- The attempt rows of successful executions. -/
def successes (attempts : List AttemptRow) : ℕ :=
  attempts.countP fun a => decide (a.status = .succeeded)

/-- The counter, the attempt rows and the log agree. -/
structure Tally (log : List LogEntry) (entry : JobEntry) : Prop where
  count : entry.row.attemptCount = claims log - returns log
  attempts : (entry.attempts.length : Int) = entry.row.attemptCount - inFlight entry.row
  recorded : (recordings log).length = entry.attempts.length
  succeeded : successes entry.attempts = if entry.row.status = .succeeded then 1 else 0

/-- A leased job has one attempt in flight. -/
theorem inFlight_of_leased {j : JobRow} (h : j.status = .leased) : inFlight j = 1 := if_pos h

/-- A job that is not leased has none. -/
theorem inFlight_of_not_leased {j : JobRow} (h : j.status ≠ .leased) : inFlight j = 0 := if_neg h

/-- One more operation is a claim or leaves the claims as they are. -/
theorem claims_snoc (log : List LogEntry) (op : LogEntry) :
    claims (log ++ [op]) = claims log + op.event.isClaim.toNat := by
  cases hop : op.event.isClaim <;> simp [claims, hop]

/-- One more operation is a return or leaves the returns as they are. -/
theorem returns_snoc (log : List LogEntry) (op : LogEntry) :
    returns (log ++ [op]) = returns log + op.event.isReturn.toNat := by
  cases hop : op.event.isReturn <;> simp [returns, hop]

/-- One more operation records an attempt or leaves the recordings as they are. -/
theorem length_recordings_snoc (log : List LogEntry) (op : LogEntry) :
    (recordings (log ++ [op])).length = (recordings log).length + op.event.isRecording.toNat := by
  cases hop : op.event.isRecording <;> simp [recordings, hop]

/-- A failed job is not leased any more, and has not succeeded. -/
theorem failUpdate_status (now : Timestamp) (retry : Bool) (args : FailArgs) (j : JobRow) :
    (failUpdate now retry args j).status ≠ .leased ∧ (failUpdate now retry args j).status ≠ .succeeded := by
  cases retry <;> simp [failUpdate]

/-- A recovered job is not leased any more, and has not succeeded. -/
theorem recoverUpdate_status (now : Timestamp) (j : JobRow) :
    (recoverUpdate now j).status ≠ .leased ∧ (recoverUpdate now j).status ≠ .succeeded := by
  by_cases hmax : j.maxAttempts ≤ j.attemptCount <;> simp [recoverUpdate, hmax]

/-- What an operation does to the three counts, in how many claims, returns and recordings it is: a
claim raises the counter and puts an attempt in flight, a return undoes both, and a recording turns
the attempt in flight into an attempt row. -/
structure CountsAs (claimed returned recorded : ℕ) (before after : JobEntry) : Prop where
  count : after.row.attemptCount + returned = before.row.attemptCount + claimed
  inFlight : inFlight after.row + returned + recorded = inFlight before.row + claimed
  attempts : after.attempts.length = before.attempts.length + recorded

/-- Every operation counts for what it is. -/
theorem JobActs.counted {op : LogEntry} {before after : JobEntry}
    (hacts : JobActs op (some before) (some after))
    (hrow : RowOk before.row) : CountsAs op.event.isClaim.toNat op.event.isReturn.toNat op.event.isRecording.toNat
      before after := by
  cases hacts with
  | claimed hclaim hx =>
    have hidle : inFlight before.row = 0 := inFlight_of_not_leased (by simp [hclaim.1])
    rw [hx]
    exact ⟨by simp [JobEvent.isReturn, JobEvent.isClaim, claimUpdate], by rw [hidle]; rfl, rfl⟩
  | extended | unlinked =>
    refine ⟨rfl, ?_, rfl⟩
    change inFlight before.row + 0 + 0 = inFlight before.row + 0
    omega
  | @returned t now x _ howned =>
    have hcount := hrow.returnToPending_count howned.2 now
    refine ⟨by simp [JobEvent.isReturn, JobEvent.isClaim, hcount], ?_, rfl⟩
    rw [inFlight_of_leased howned.2]
    rfl
  | completed howned =>
    refine ⟨rfl, ?_, by simp [JobEvent.isRecording, completeJob]⟩
    rw [inFlight_of_leased howned.2]
    rfl
  | @failed t now x args _ howned =>
    have hidle := (failUpdate_status now (shouldRetry x.job args) args before.row).1
    refine ⟨rfl, ?_, by simp [JobEvent.isRecording, failJob]⟩
    rw [inFlight_of_leased howned.2, failJob, inFlight_of_not_leased hidle]
    rfl
  | @recovered t now id _ hexpired =>
    have hidle := (recoverUpdate_status now before.row).1
    refine ⟨rfl, ?_, by simp [JobEvent.isRecording, recoverExpiredLease]⟩
    rw [inFlight_of_leased hexpired.1, recoverExpiredLease, inFlight_of_not_leased hidle]
    rfl
  | cancelled hpending =>
    have hidle : inFlight before.row = 0 := inFlight_of_not_leased (by simp [hpending])
    exact ⟨rfl, by rw [hidle]; rfl, rfl⟩

/-- A job has a successful attempt row exactly if it has succeeded. -/
theorem JobActs.succeeded {op : LogEntry} {before after : JobEntry}
    (hacts : JobActs op (some before) (some after))
    (h : successes before.attempts = if before.row.status = .succeeded then 1 else 0) :
    successes after.attempts = if after.row.status = .succeeded then 1 else 0 := by
  cases hacts with
  | claimed hclaim hx =>
    rw [hx]
    simpa [claimUpdate, hclaim.1] using h
  | extended | unlinked => exact h
  | returned howned => simpa [returnToPending, howned.2] using h
  | completed howned => simpa [completeJob, completeUpdate, insertAttempt, successes, howned.2] using h
  | @failed t now x args _ howned =>
    have hstatus := (failUpdate_status now (shouldRetry x.job args) args before.row).2
    have hattempt : successes [insertAttempt now x.job x.worker (if args.timedOut then .timeout else .failed)
        args.durationMs args.errorType args.errorMessage args.responseStatus args.responseBodyPreview] = 0 := by
      cases args.timedOut <;> rfl
    rw [howned.2, if_neg (by decide)] at h
    change successes (before.attempts ++ [_]) = if (failUpdate now _ args before.row).status = .succeeded then 1 else 0
    rw [if_neg hstatus, successes, List.countP_append]
    exact Nat.add_eq_zero_iff.mpr ⟨h, hattempt⟩
  | @recovered t now id _ hexpired =>
    have hstatus := (recoverUpdate_status now before.row).2
    rw [hexpired.1, if_neg (by decide)] at h
    change successes (before.attempts ++ [_]) = if (recoverUpdate now before.row).status = .succeeded then 1 else 0
    rw [if_neg hstatus, successes, List.countP_append]
    exact Nat.add_eq_zero_iff.mpr ⟨h, rfl⟩
  | cancelled hpending => simpa [cancelUpdate, hpending] using h

/-- Every operation keeps the counter, the attempt rows and the log in agreement. -/
theorem Tally.step {log : List LogEntry} {op : LogEntry} {before after : JobEntry}
    (h : Tally log before) (hrow : RowOk before.row) (hacts : JobActs op (some before) (some after)) :
    Tally (log ++ [op]) after := by
  obtain ⟨hcount, hinFlight, hattempts⟩ := hacts.counted hrow
  constructor
  · have hbefore := h.count
    rw [claims_snoc, returns_snoc]
    push_cast
    omega
  · have hbefore := h.attempts
    omega
  · rw [length_recordings_snoc, h.recorded, hattempts]
  · exact hacts.succeeded h.succeeded

/-- The counter, the attempt rows and the log agree throughout the history of a job. -/
theorem JobHistory.tally {id : JobId} {log : List LogEntry} {entry : JobEntry}
    (h : JobHistory id log (some entry)) : Tally log entry := by
  refine h.invariant (fun op entry hacts => ?_) fun log op before after hbefore _ hacts htally =>
    htally.step hbefore.rowOk hacts
  cases hacts with
  | inserted hmax => exact ⟨rfl, rfl, rfl, rfl⟩

/-- In every reachable state the attempt counter of a job is its committed claims less its returns,
every use of an attempt but the one in flight has its attempt row, and a job has succeeded exactly
if one of its attempts has. -/
theorem attempt_ledger {s : State} (h : Reachable s) {id : JobId} {entry : JobEntry}
    (hget : s.jobs.get id = some entry) :
    entry.row.attemptCount = claims (jobLog s.log id) - returns (jobLog s.log id) ∧
      (entry.attempts.length : Int) = entry.row.attemptCount - (if entry.row.status = .leased then 1 else 0) ∧
      (entry.attempts.filter fun a => a.status = .succeeded).length =
        if entry.row.status = .succeeded then 1 else 0 := by
  have htally := (hget ▸ h.jobHistory id : JobHistory id (jobLog s.log id) (some entry)).tally
  refine ⟨htally.count, htally.attempts, ?_⟩
  rw [← List.countP_eq_length_filter]
  exact htally.succeeded

/-- A job whose first attempt fails, whose second one is lost with its worker and whose third one
succeeds. -/
def triedRun : List Action :=
  transaction 0 (.enqueue (handlerJob "mail" 3)) 5 ++
    transaction 1 (.claimLoop ⟨"w", ["mail"], 1, 60, 10⟩) 10 ++
    transaction 2 (.call 0 (.fail ⟨true, false, 2, 0, some "ValueError", none, none, none⟩)) 2 ++
    .tick 2000000 :: transaction 3 (.claimLoop ⟨"v", ["mail"], 1, 60, 10⟩) 10 ++
    .tick 61000000 :: transaction 4 (.claimLoop ⟨"w", ["mail"], 1, 60, 10⟩) 11 ++
    transaction 5 (.call 2 (.complete ⟨5, some 200, none⟩)) 2

/-- A job that failed, whose lease then expired and that succeeded at last has three attempts and three claims. -/
theorem attempt_ledger_triedRun : ∃ entry, (stateAfter 0 triedRun).jobs.get 0 = some entry ∧
    entry.attempts.map AttemptRow.status = [.failed, .leaseExpired, .succeeded] ∧
    entry.row.attemptCount = claims (jobLog (stateAfter 0 triedRun).log 0) -
      returns (jobLog (stateAfter 0 triedRun).log 0) ∧
    (entry.attempts.length : Int) = entry.row.attemptCount - (if entry.row.status = .leased then 1 else 0) ∧
    (entry.attempts.filter fun a => a.status = .succeeded).length =
      if entry.row.status = .succeeded then 1 else 0 := by
  have hrow : ((stateAfter 0 triedRun).jobs.get 0).map (fun entry => entry.attempts.map AttemptRow.status) =
      some [.failed, .leaseExpired, .succeeded] := by
    decide +kernel
  obtain ⟨entry, hget, hattempts⟩ := Option.map_eq_some_iff.mp hrow
  exact ⟨entry, hget, hattempts, attempt_ledger (reachable_stateAfter _ _) hget⟩

/-! ## The retry budget -/

/-- The rows returned by the claims of a job carry its limit, and never a count above the live one
while the job is leased. -/
def SnapshotsBelow (log : List LogEntry) (entry : JobEntry) : Prop :=
  ∀ c ∈ log, ∀ x leaseSeconds, c.event = .claimed x leaseSeconds →
    x.job.maxAttempts = entry.row.maxAttempts ∧ x.job.attemptCount ≤ entry.row.attemptCount + 1 - inFlight entry.row

/-- No operation changes the limit. -/
theorem JobActs.maxAttempts_eq {op : LogEntry} {before after : JobEntry}
    (hacts : JobActs op (some before) (some after)) :
    after.row.maxAttempts = before.row.maxAttempts := by
  cases hacts with
  | claimed hclaim hx => exact congrArg (fun x => x.job.maxAttempts) hx
  | _ => rfl

/-- The count of the attempts that are not in flight never falls. -/
theorem JobActs.count_le {op : LogEntry} {before after : JobEntry}
    (hacts : JobActs op (some before) (some after)) (hrow : RowOk before.row) :
    before.row.attemptCount + 1 - inFlight before.row ≤ after.row.attemptCount + 1 - inFlight after.row := by
  obtain ⟨hcount, hinFlight, -⟩ := hacts.counted hrow
  omega

/-- Every operation keeps the attempts in what its callers know within the budget. -/
theorem SnapshotsBelow.step {log : List LogEntry} {op : LogEntry} {before after : JobEntry}
    (h : SnapshotsBelow log before) (hrow : RowOk before.row)
    (hacts : JobActs op (some before) (some after)) :
    SnapshotsBelow (log ++ [op]) after := by
  have hmax := hacts.maxAttempts_eq
  have hcount := hacts.count_le hrow
  intro c hc x leaseSeconds hclaim
  rcases List.mem_append.mp hc with hold | hnew
  · obtain ⟨hxmax, hxcount⟩ := h c hold x leaseSeconds hclaim
    exact ⟨hxmax.trans hmax.symm, hxcount.trans hcount⟩
  · obtain rfl : c = op := List.mem_singleton.mp hnew
    cases hacts with
    | claimed hclaimable hx =>
      obtain ⟨rfl, rfl⟩ : _ ∧ _ := by simpa using hclaim
      refine ⟨rfl, ?_⟩
      rw [hx]
      simp [claimUpdate, inFlight]
    | _ => cases hclaim

/-- So it is after any history of a job. -/
theorem JobHistory.snapshotsBelow {id : JobId} {log : List LogEntry} {entry : JobEntry}
    (h : JobHistory id log (some entry)) : SnapshotsBelow log entry := by
  refine h.invariant (fun op entry hacts => ?_) fun log op before after hbefore _ hacts hsnapshots =>
    hsnapshots.step hbefore.rowOk hacts
  cases hacts with
  | inserted hmax =>
    intro c hc x leaseSeconds hclaim
    rw [List.mem_singleton.mp hc] at hclaim
    cases hclaim

/-- The last attempt row of the job was written by a failure that is not to be retried. -/
def LastFailedPermanently (log : List LogEntry) (entry : JobEntry) : Prop :=
  ∃ op x args, (recordings log).getLast? = some op ∧ op.event = .failed x args ∧ args.retryable = false ∧
    entry.attempts.getLast? = some (insertAttempt op.now x.job x.worker
      (if args.timedOut then .timeout else .failed) args.durationMs args.errorType args.errorMessage
      args.responseStatus args.responseBodyPreview)

/-- A dead letter has failed permanently or has used up its attempts. -/
def DeadForReason (log : List LogEntry) (entry : JobEntry) : Prop :=
  entry.row.status = .deadLetter →
    LastFailedPermanently log entry ∨ entry.row.attemptCount = entry.row.maxAttempts

/-- A failure that is decided on an outdated row does not cut the budget short. -/
theorem DeadForReason.failed {id : JobId} {log : List LogEntry} {t : TxnId} {now : Timestamp}
    {x : Execution}
    {args : FailArgs} {before : JobEntry} (hhistory : JobHistory id log (some before))
    (hop : Admissible log ⟨t, now, .failed x args⟩) (howned : OwnedBy x.worker before.row) :
    DeadForReason (log ++ [⟨t, now, .failed x args⟩]) (failJob now x.job x.worker args before) := by
  intro hdead
  have hretry : shouldRetry x.job args = false := by
    by_contra hretry
    simp [failJob, failUpdate, Bool.eq_true_of_not_eq_false hretry] at hdead
  cases hretryable : args.retryable with
  | false =>
    refine Or.inl ⟨⟨t, now, .failed x args⟩, x, args, ?_, rfl, hretryable, ?_⟩
    · simp [recordings, JobEvent.isRecording]
    · simp [failJob]
  | true =>
    right
    obtain ⟨c, hc, leaseSeconds, hclaim⟩ := hop.caller x rfl
    obtain ⟨hmax, hcount⟩ := hhistory.snapshotsBelow c hc x leaseSeconds hclaim
    have hspent : x.job.maxAttempts ≤ x.job.attemptCount := by simpa [shouldRetry, hretryable] using hretry
    have hle := hhistory.rowOk.count_le
    simp only [inFlight, howned.2, if_true] at hcount
    change before.row.attemptCount = before.row.maxAttempts
    omega

/-- After any history a dead letter has failed permanently or has used up its attempts. -/
theorem JobHistory.deadForReason {id : JobId} {log : List LogEntry} {entry : JobEntry}
    (h : JobHistory id log (some entry)) : DeadForReason log entry := by
  refine h.invariant (fun op entry hacts => ?_) fun log op before after hbefore hop hacts hdead => ?_
  · cases hacts with
    | inserted hmax =>
      intro hstatus
      cases hstatus
  · cases hacts with
    | claimed hclaim hx =>
      intro hstatus
      rw [hx] at hstatus
      cases hstatus
    | extended howned =>
      intro hstatus
      exact absurd (howned.2.symm.trans hstatus) (by decide)
    | returned howned =>
      intro hstatus
      cases hstatus
    | completed howned =>
      intro hstatus
      cases hstatus
    | failed howned => exact .failed hbefore hop howned
    | @recovered t now id _ hexpired =>
      intro hstatus
      right
      have hle := hbefore.rowOk.count_le
      by_contra hne
      change before.row.attemptCount ≠ before.row.maxAttempts at hne
      have hmax : ¬ before.row.maxAttempts ≤ before.row.attemptCount := by omega
      simp [recoverExpiredLease, recoverUpdate, hmax] at hstatus
    | cancelled hpending =>
      intro hstatus
      cases hstatus
    | @unlinked t now id =>
      intro hstatus
      rcases hdead hstatus with ⟨op, x, args, hlast, hevent, hretryable, hattempt⟩ | hspent
      · exact Or.inl ⟨op, x, args, by simpa [recordings, JobEvent.isRecording] using hlast, hevent, hretryable,
          hattempt⟩
      · exact Or.inr hspent

/-- In every reachable state a dead letter has failed permanently or has been tried exactly
`max_attempts` times, and no job is tried more often. -/
theorem retry_budget {s : State} (h : Reachable s) {id : JobId} {entry : JobEntry}
    (hget : s.jobs.get id = some entry) :
    (entry.row.status = .deadLetter → LastFailedPermanently (jobLog s.log id) entry ∨
      entry.row.attemptCount = entry.row.maxAttempts ∧ entry.attempts.length = entry.row.maxAttempts) ∧
    entry.row.attemptCount ≤ entry.row.maxAttempts ∧
    entry.attempts.length ≤ entry.row.maxAttempts ∧
    ((∀ op ∈ jobLog s.log id, ∀ x args, op.event = .failed x args → args.retryable = true) →
      entry.row.status = .deadLetter → (recordings (jobLog s.log id)).length = entry.row.maxAttempts) := by
  have hhistory : JobHistory id (jobLog s.log id) (some entry) := hget ▸ h.jobHistory id
  have htally := hhistory.tally
  have hattempts := htally.attempts
  have hle := hhistory.rowOk.count_le
  have hflight : 0 ≤ inFlight entry.row := by
    unfold inFlight
    split <;> decide
  have hspent (hdead : entry.row.status = .deadLetter)
      (hmax : entry.row.attemptCount = entry.row.maxAttempts) : entry.attempts.length = entry.row.maxAttempts := by
    simp only [inFlight, hdead] at hattempts
    simpa [hmax] using hattempts
  refine ⟨fun hdead => ?_, hle, by omega, fun hretryable hdead => ?_⟩
  · rcases hhistory.deadForReason hdead with hperm | hmax
    · exact Or.inl hperm
    · exact Or.inr ⟨hmax, hspent hdead hmax⟩
  · rw [htally.recorded]
    rcases hhistory.deadForReason hdead with ⟨op, x, args, hlast, hevent, hperm, -⟩ | hmax
    · have hmem : op ∈ jobLog s.log id := (List.mem_filter.mp (List.mem_of_getLast? hlast)).1
      rw [hretryable op hmem x args hevent] at hperm
      cases hperm
    · exact hspent hdead hmax

/-- A job of one attempt whose lease expires, recovered by the next round. -/
def expiredRun : List Action :=
  transaction 0 (.enqueue (handlerJob "mail" 1)) 5 ++
    transaction 1 (.claimLoop ⟨"w", ["mail"], 1, 60, 10⟩) 10 ++
    .tick 61000000 :: transaction 2 (.claimLoop ⟨"v", ["mail"], 1, 60, 10⟩) 10

/-- A job with one attempt, whose lease has expired. -/
theorem retry_budget_expiredRun : ∃ entry, (stateAfter 0 expiredRun).jobs.get 0 = some entry ∧
    entry.row.status = .deadLetter ∧ (LastFailedPermanently (jobLog (stateAfter 0 expiredRun).log 0) entry ∨
      entry.row.attemptCount = entry.row.maxAttempts ∧ entry.attempts.length = entry.row.maxAttempts) := by
  have hstatus : ((stateAfter 0 expiredRun).jobs.get 0).map (fun entry => entry.row.status) =
      some .deadLetter := by
    decide +kernel
  obtain ⟨entry, hget, hdead⟩ := Option.map_eq_some_iff.mp hstatus
  exact ⟨entry, hget, hdead, (retry_budget (reachable_stateAfter _ _) hget).1 hdead⟩

end PgRelay
