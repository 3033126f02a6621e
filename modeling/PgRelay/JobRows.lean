import PgRelay.Statements

/-!
# The representation invariant of a job row

Seven updates write different subsets of the columns `status`, `locked_by`, `locked_until`,
`attempt_count` and `completed_at`, and no constraint of the schema couples them. Each update is
shown to keep them in step on the rows it is legal on, and so they are in step in every committed
row and in every row an open transaction sees.
-/

namespace PgRelay

open RowStore

/-- The coupling of the columns of a job row. -/
structure RowOk (j : JobRow) : Prop where
  lockedBy : j.lockedBy.isSome = decide (j.status = .leased)
  lockedUntil : j.lockedUntil.isSome = decide (j.status = .leased)
  completedAt : j.completedAt.isSome = j.status.isFinal
  count_nonneg : 0 ≤ j.attemptCount
  count_le : j.attemptCount ≤ j.maxAttempts
  count_pos : j.status = .leased → 1 ≤ j.attemptCount

/-- An active row has not been completed. -/
theorem RowOk.completedAt_eq_none {j : JobRow} (h : RowOk j) (hactive : j.status.isFinal = false) :
    j.completedAt = none := by
  have hc := h.completedAt
  rw [hactive] at hc
  simpa using hc

/-- A row that nobody holds carries no lease. -/
theorem RowOk.unlocked {j : JobRow} (h : RowOk j) (hstatus : j.status ≠ .leased) :
    j.lockedBy = none ∧ j.lockedUntil = none := by
  have hby := h.lockedBy
  have huntil := h.lockedUntil
  simp only [hstatus, decide_false] at hby huntil
  exact ⟨by simpa using hby, by simpa using huntil⟩

/-- A new row keeps to the checks of the table. -/
theorem rowOk_insertJob (id : JobId) (now : Timestamp) {job : NewJob} (hmax : 0 < job.maxAttempts) :
    RowOk (insertJob id now job) :=
  ⟨rfl, rfl, rfl, le_rfl, hmax.le, fun hstatus => by cases hstatus⟩

/-- So does a claimed row. -/
theorem RowOk.claimUpdate {j : JobRow} (h : RowOk j) {now : Timestamp} (hclaim : Claimable now j)
    (worker : WorkerId) (leaseSeconds : Int) : RowOk (claimUpdate now worker leaseSeconds j) where
  lockedBy := rfl
  lockedUntil := rfl
  completedAt := by
    have hnone := h.completedAt_eq_none (by rw [hclaim.1]; rfl)
    simp [PgRelay.claimUpdate, hnone, JobStatus.isFinal]
  count_nonneg := by
    have := h.count_nonneg
    change 0 ≤ j.attemptCount + 1
    omega
  count_le := hclaim.2.2
  count_pos _ := by
    have := h.count_nonneg
    change 1 ≤ j.attemptCount + 1
    omega

/-- So does a row with an extended lease. -/
theorem RowOk.extendLease {j : JobRow} (h : RowOk j) {worker : WorkerId} (howned : OwnedBy worker j)
    (now : Timestamp) (leaseSeconds : Int) : RowOk (extendLease now leaseSeconds j) :=
  ⟨h.lockedBy, by simp [PgRelay.extendLease, howned.2], h.completedAt, h.count_nonneg, h.count_le, h.count_pos⟩

/-- A leased row has an attempt to give back, so the floor of the decrement is never taken. -/
theorem RowOk.returnToPending_count {j : JobRow} (h : RowOk j) (hleased : j.status = .leased)
    (now : Timestamp) : (returnToPending now j).attemptCount = j.attemptCount - 1 := by
  have hpos := h.count_pos hleased
  change max (j.attemptCount - 1) 0 = j.attemptCount - 1
  omega

/-- A row that has been given back keeps to the checks. -/
theorem RowOk.returnToPending {j : JobRow} (h : RowOk j) {worker : WorkerId}
    (howned : OwnedBy worker j) (now : Timestamp) : RowOk (returnToPending now j) where
  lockedBy := rfl
  lockedUntil := rfl
  completedAt := by
    have hnone := h.completedAt_eq_none (by rw [howned.2]; rfl)
    simp [PgRelay.returnToPending, hnone, JobStatus.isFinal]
  count_nonneg := le_max_right _ _
  count_le := by
    have hcount := h.returnToPending_count howned.2 now
    have hle := h.count_le
    change (PgRelay.returnToPending now j).attemptCount ≤ j.maxAttempts
    omega
  count_pos hstatus := by cases hstatus

/-- So does a completed row. -/
theorem RowOk.completeUpdate {j : JobRow} (h : RowOk j) (now : Timestamp) (args : CompleteArgs) :
    RowOk (completeUpdate now args j) :=
  ⟨rfl, rfl, rfl, h.count_nonneg, h.count_le, fun hstatus => by cases hstatus⟩

/-- So does a failed row. -/
theorem RowOk.failUpdate {j : JobRow} (h : RowOk j) {worker : WorkerId} (howned : OwnedBy worker j)
    (now : Timestamp) (retry : Bool) (args : FailArgs) : RowOk (failUpdate now retry args j) := by
  have hnone := h.completedAt_eq_none (by rw [howned.2]; rfl)
  refine ⟨?_, ?_, ?_, h.count_nonneg, h.count_le, ?_⟩ <;>
    cases retry <;> simp [PgRelay.failUpdate, hnone, JobStatus.isFinal]

/-- So does a recovered row. -/
theorem RowOk.recoverUpdate {j : JobRow} (h : RowOk j) {now : Timestamp}
    (hexpired : LeaseExpired now j) :
    RowOk (recoverUpdate now j) := by
  have hnone := h.completedAt_eq_none (by rw [hexpired.1]; rfl)
  refine ⟨?_, ?_, ?_, h.count_nonneg, h.count_le, ?_⟩ <;>
    by_cases hmax : j.maxAttempts ≤ j.attemptCount <;>
    simp [PgRelay.recoverUpdate, hnone, hmax, JobStatus.isFinal]

/-- So does a cancelled row. -/
theorem RowOk.cancelUpdate {j : JobRow} (h : RowOk j) (hpending : j.status = .pending)
    (now : Timestamp) :
    RowOk (cancelUpdate now j) := by
  obtain ⟨hby, huntil⟩ := h.unlocked (by simp [hpending])
  exact ⟨by simp [PgRelay.cancelUpdate, hby], by simp [PgRelay.cancelUpdate, huntil], rfl, h.count_nonneg,
    h.count_le, fun hstatus => by cases hstatus⟩

/-- Every operation on a job keeps its columns in step. -/
theorem RowOk.step {op : LogEntry} {before after : JobEntry} (h : RowOk before.row)
    (hacts : JobActs op (some before) (some after)) : RowOk after.row := by
  cases hacts with
  | claimed hclaim hx =>
    rw [hx]
    exact h.claimUpdate hclaim _ _
  | extended howned => exact h.extendLease howned _ _
  | returned howned => exact h.returnToPending howned _
  | completed howned => exact h.completeUpdate _ _
  | failed howned => exact h.failUpdate howned _ _ _
  | recovered hexpired => exact h.recoverUpdate hexpired
  | cancelled hpending => exact h.cancelUpdate hpending _
  | unlinked => exact ⟨h.lockedBy, h.lockedUntil, h.completedAt, h.count_nonneg, h.count_le, h.count_pos⟩

/-- The columns of a job are in step throughout its history. -/
theorem JobHistory.rowOk {id : JobId} {log : List LogEntry} {entry : JobEntry}
    (h : JobHistory id log (some entry)) : RowOk entry.row := by
  refine h.invariant (I := fun _ entry => RowOk entry.row) (fun op entry hacts => ?_) ?_
  · cases hacts with
    | inserted hmax => exact rowOk_insertJob _ _ hmax
  · intro log op before after _ _ hacts hbefore
    exact hbefore.step hacts

/-- A final row is purged by any policy once it is old enough. -/
theorem RowOk.eventually_purgeable {j : JobRow} (h : RowOk j) (hfinal : j.status.isFinal = true)
    (args : PurgeArgs) : ∃ since, ∀ now, since < now → Purgeable now args j := by
  obtain ⟨done, hdone⟩ := Option.isSome_iff_exists.mp (h.completedAt.trans hfinal)
  have hold (now : Timestamp) (age : Int) (hnow : done + days age < now) : completedBefore now age j = true := by
    simp only [completedBefore, hdone, Option.any_some, decide_eq_true_eq]
    exact Int.lt_sub_right_of_add_lt hnow
  refine ⟨max (done + days args.succeededDays) (done + days args.deadLetterDays), fun now hnow => ?_⟩
  have hs := hold now args.succeededDays (lt_of_le_of_lt (le_max_left _ _) hnow)
  have hd := hold now args.deadLetterDays (lt_of_le_of_lt (le_max_right _ _) hnow)
  cases hstatus : j.status with
  | pending => simp [hstatus, JobStatus.isFinal] at hfinal
  | leased => simp [hstatus, JobStatus.isFinal] at hfinal
  | succeeded => exact Or.inl ⟨hstatus, hs⟩
  | deadLetter => exact Or.inr (Or.inl ⟨hstatus, hd⟩)
  | cancelled => exact Or.inr (Or.inr ⟨hstatus, hd⟩)

/-- A row of the committed table, or one that an open transaction sees. -/
def Visible (s : State) (id : JobId) (entry : JobEntry) : Prop :=
  s.jobs.get id = some entry ∨ ∃ t T, s.txns t = some T ∧ (T.view s).get id = some entry

/-- Every visible row has a history. -/
theorem Reachable.history_of_visible {s : State} (h : Reachable s) {id : JobId} {entry : JobEntry}
    (hrow : Visible s id entry) : ∃ log, JobHistory id log (some entry) := by
  rcases hrow with hget | ⟨t, T, hT, hget⟩
  · exact ⟨_, hget ▸ h.jobHistory id⟩
  · exact ⟨_, hget ▸ h.jobHistory_view hT id⟩

/-- What the columns of a job row say about each other, column by column. -/
structure ColumnsInStep (j : JobRow) : Prop where
  leased_iff_both : j.status = .leased ↔ j.lockedBy ≠ none ∧ j.lockedUntil ≠ none
  leased_iff_either : j.status = .leased ↔ j.lockedBy ≠ none ∨ j.lockedUntil ≠ none
  completed_iff : j.completedAt ≠ none ↔ j.status = .succeeded ∨ j.status = .deadLetter ∨ j.status = .cancelled
  purged : ∀ args, j.completedAt ≠ none → ∃ since, ∀ now, since < now → Purgeable now args j
  kept : ∀ args now, j.completedAt = none → ¬ Purgeable now args j
  count_bounds : 0 ≤ j.attemptCount ∧ j.attemptCount ≤ j.maxAttempts
  leased_count : j.status = .leased →
    1 ≤ j.attemptCount ∧ ∀ now, (returnToPending now j).attemptCount = j.attemptCount - 1

/-- The columns of every job row are in step, in every reachable state. -/
theorem jobRow_columnsInStep {s : State} (h : Reachable s) {id : JobId} {entry : JobEntry}
    (hrow : Visible s id entry) : ColumnsInStep entry.row := by
  obtain ⟨log, hhistory⟩ := h.history_of_visible hrow
  have hok := hhistory.rowOk
  have hby : entry.row.lockedBy ≠ none ↔ entry.row.status = .leased := by
    rw [← Option.isSome_iff_ne_none, hok.lockedBy, decide_eq_true_iff]
  have huntil : entry.row.lockedUntil ≠ none ↔ entry.row.status = .leased := by
    rw [← Option.isSome_iff_ne_none, hok.lockedUntil, decide_eq_true_iff]
  have hdone : entry.row.completedAt ≠ none ↔ entry.row.status.isFinal = true := by
    rw [← Option.isSome_iff_ne_none, hok.completedAt]
  refine ⟨by tauto, by tauto, hdone.trans ?_, fun args hc => hok.eventually_purgeable (hdone.mp hc) args,
    fun args now hc hp => hdone.mpr hp.isFinal hc, ⟨hok.count_nonneg, hok.count_le⟩,
    fun hleased => ⟨hok.count_pos hleased, hok.returnToPending_count hleased⟩⟩
  cases entry.row.status <;> simp [JobStatus.isFinal]

/-- The parameters of an enqueued handler job. -/
def handlerJob (q : QueueName) (maxAttempts : Int) : NewJob where
  queueName := q
  kind := .handler
  name := "send"
  payload := .obj []
  headers := .obj []
  metadata := .obj []
  priority := 0
  maxAttempts := maxAttempts
  timeoutSeconds := 30
  availableAt := none
  idempotencyKey := none
  dedupeKey := none
  traceId := none
  replayedFromJobId := none

/-- A transaction that runs for a number of steps and commits. -/
def transaction (t : TxnId) (request : Request) (steps : ℕ) : List Action :=
  .begin request :: List.replicate steps (.advance t) ++ [.commit t]

/-- One job, enqueued and claimed. -/
def claimedRun : List Action :=
  transaction 0 (.enqueue (handlerJob "mail" 2)) 5 ++
    transaction 1 (.claimLoop ⟨"w", ["mail"], 1, 60, 10⟩) 10

/-- The row of a leased job. -/
theorem jobRow_columnsInStep_claimedRun : ∃ entry,
    (stateAfter 0 claimedRun).jobs.get 0 = some entry ∧ entry.row.status = .leased ∧ ColumnsInStep entry.row := by
  have hstatus : ((stateAfter 0 claimedRun).jobs.get 0).map (fun entry => entry.row.status) = some .leased := by
    decide +kernel
  obtain ⟨entry, hget, hleased⟩ := Option.map_eq_some_iff.mp hstatus
  exact ⟨entry, hget, hleased, jobRow_columnsInStep (reachable_stateAfter _ _) (Or.inl hget)⟩

end PgRelay
