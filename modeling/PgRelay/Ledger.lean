import PgRelay.JobSql
import PgRelay.RowStore.Versions

/-!
# The ledger of job transitions

The abstract view of the job table: a log of committed operations, each of which changes one job
and is legal only from certain states of that job. The transaction model is proved to commit
nothing else, in this order, so whatever follows from the ledger holds of every interleaving.

An execution is identified by the claim that started it and carries the `JobRow` that claim
returned. Heartbeats, results and graceful returns are logged with the execution that called
them, which the statements themselves never compare with anything but the worker's id.
-/

namespace PgRelay

open RowStore

/-- A task of a worker, started from the `JobRow` returned by the claim of one transaction. -/
structure Execution where
  claim : TxnId
  worker : WorkerId
  job : JobRow

/-- The operations that change a job. -/
inductive JobEvent
  | inserted (id : JobId) (job : NewJob)
  | claimed (x : Execution) (leaseSeconds : Int)
  | extended (x : Execution) (leaseSeconds : Int)
  | returned (x : Execution)
  | completed (x : Execution) (args : CompleteArgs)
  | failed (x : Execution) (args : FailArgs)
  | recovered (id : JobId)
  | cancelled (id : JobId)
  | unlinked (id : JobId)
  | deleted (id : JobId) (args : PurgeArgs)

/-- The job an operation changes. -/
def JobEvent.jobId : JobEvent → JobId
  | .inserted id _ | .recovered id | .cancelled id | .unlinked id | .deleted id _ => id
  | .claimed x _ | .extended x _ | .returned x | .completed x _ | .failed x _ => x.job.id

/-- The execution on whose behalf a heartbeat, a result or a return was called. -/
def JobEvent.caller : JobEvent → Option Execution
  | .extended x _ | .returned x | .completed x _ | .failed x _ => some x
  | .inserted _ _ | .claimed _ _ | .recovered _ | .cancelled _ | .unlinked _ | .deleted _ _ => none

/-- An operation with the transaction that ran it and that transaction's `now()`. -/
structure LogEntry where
  txn : TxnId
  now : Timestamp
  event : JobEvent

/-- How a logged operation changes its job: the condition its statement tests, and the outcome. -/
inductive JobActs : LogEntry → Option JobEntry → Option JobEntry → Prop
  | inserted {t now id job} (hmax : 0 < job.maxAttempts) :
      JobActs ⟨t, now, .inserted id job⟩ none (some ⟨insertJob id now job, []⟩)
  | claimed {t now x leaseSeconds entry} (hclaim : Claimable now entry.row)
      (hx : x = ⟨t, x.worker, claimUpdate now x.worker leaseSeconds entry.row⟩) :
      JobActs ⟨t, now, .claimed x leaseSeconds⟩ (some entry) (some { entry with row := x.job })
  | extended {t now x leaseSeconds entry} (howned : OwnedBy x.worker entry.row) :
      JobActs ⟨t, now, .extended x leaseSeconds⟩ (some entry)
        (some { entry with row := extendLease now leaseSeconds entry.row })
  | returned {t now x entry} (howned : OwnedBy x.worker entry.row) :
      JobActs ⟨t, now, .returned x⟩ (some entry) (some { entry with row := returnToPending now entry.row })
  | completed {t now x args entry} (howned : OwnedBy x.worker entry.row) :
      JobActs ⟨t, now, .completed x args⟩ (some entry) (some (completeJob now x.job x.worker args entry))
  | failed {t now x args entry} (howned : OwnedBy x.worker entry.row) :
      JobActs ⟨t, now, .failed x args⟩ (some entry) (some (failJob now x.job x.worker args entry))
  | recovered {t now id entry} (hexpired : LeaseExpired now entry.row) :
      JobActs ⟨t, now, .recovered id⟩ (some entry) (some (recoverExpiredLease now entry))
  | cancelled {t now id entry} (hpending : entry.row.status = .pending) :
      JobActs ⟨t, now, .cancelled id⟩ (some entry) (some { entry with row := cancelUpdate now entry.row })
  | unlinked {t now id entry} :
      JobActs ⟨t, now, .unlinked id⟩ (some entry) (some { entry with row := unlinkReplay entry.row })
  | deleted {t now id args entry} (hpurge : Purgeable now args entry.row) :
      JobActs ⟨t, now, .deleted id args⟩ (some entry) none

/-- No operation changes the id of a row. -/
theorem JobActs.id_eq {op : LogEntry} {before after : JobEntry}
    (h : JobActs op (some before) (some after)) : after.id = before.id := by
  cases h with
  | claimed _ hx => exact congrArg (fun x => x.job.id) hx
  | _ => rfl

/-- The job table with its logged operations. -/
def jobDynamics : Dynamics JobEntry.id LogEntry where
  target op := op.event.jobId
  acts := JobActs
  acts_key := by
    intro op before after hacts hkey r hr
    subst hr
    cases before with
    | none => cases hacts; rfl
    | some entry => exact hacts.id_eq.trans (hkey entry rfl)

/-- The logged operations on one job. -/
def jobLog (log : List LogEntry) (id : JobId) : List LogEntry :=
  log.filter fun entry => entry.event.jobId = id

/-- The operations on a job in a longer log are those in its two parts. -/
@[simp] theorem jobLog_append (log log' : List LogEntry) (id : JobId) :
    jobLog (log ++ log') id = jobLog log id ++ jobLog log' id := List.filter_append ..

/-- What an operation owes to the operations logged before it: a heartbeat, a result or a return
is called for an execution that a claim has started, and an inserted id has not been used. -/
structure Admissible (log : List LogEntry) (op : LogEntry) : Prop where
  caller : ∀ x, op.event.caller = some x → ∃ c ∈ log, ∃ leaseSeconds, c.event = .claimed x leaseSeconds
  fresh : ∀ id job, op.event = .inserted id job → ∀ c ∈ log, c.event.jobId ≠ id

/-- Every operation of the log is admissible at its place. -/
def LogOk (log : List LogEntry) : Prop :=
  ∀ pre op post, log = pre ++ op :: post → Admissible pre op

/-- The operations on one job, each legal and admissible at its turn, with the state they leave
the job in. -/
inductive JobHistory (id : JobId) : List LogEntry → Option JobEntry → Prop
  | nil : JobHistory id [] none
  | snoc {log op before after} : JobHistory id log before → JobActs op before after →
      Admissible log op → op.event.jobId = id → JobHistory id (log ++ [op]) after

/-- The caller of an operation works on the job of that operation. -/
theorem JobEvent.jobId_of_caller {event : JobEvent} {x : Execution} (h : event.caller = some x) :
    x.job.id = event.jobId := by
  cases event <;> cases h <;> rfl

/-- Nothing is wrong with the empty log. -/
theorem logOk_nil : LogOk [] := by
  intro pre op post hsplit
  simp at hsplit

/-- A prefix of an admissible log is admissible. -/
theorem LogOk.of_append {log rest : List LogEntry} (h : LogOk (log ++ rest)) : LogOk log := by
  intro pre op post hsplit
  exact h pre op (post ++ rest) (by simp [hsplit])

/-- An admissible log grows by an admissible operation. -/
theorem LogOk.snoc {log : List LogEntry} {op : LogEntry} (h : LogOk log) (hop : Admissible log op) :
    LogOk (log ++ [op]) := by
  intro pre op' post hsplit
  rcases List.eq_nil_or_concat post with rfl | ⟨front, last, rfl⟩
  · obtain ⟨rfl, hlast⟩ := List.append_inj' hsplit rfl
    obtain rfl : op = op' := by simpa using hlast
    exact hop
  · rw [List.concat_eq_append, ← List.cons_append, ← List.append_assoc] at hsplit
    exact h pre op' front (List.append_inj' hsplit rfl).1

/-- The operations of two transactions on disjoint jobs are admissible one after the other when
each of them is admissible alone. -/
theorem LogOk.append_of_disjoint {log first second : List LogEntry} (h₁ : LogOk (log ++ first))
    (h₂ : LogOk (log ++ second))
    (hdisjoint : ∀ a ∈ first, ∀ b ∈ second, a.event.jobId ≠ b.event.jobId) :
    LogOk (log ++ first ++ second) := by
  induction second using List.reverseRecOn with
  | nil => simpa using h₁
  | append_singleton second op ih =>
    rw [← List.append_assoc] at h₂ ⊢
    have hop : Admissible (log ++ second) op := h₂ (log ++ second) op [] rfl
    refine (ih h₂.of_append fun a ha b hb => hdisjoint a ha b (List.mem_append_left _ hb)).snoc ?_
    constructor
    · intro x hx
      obtain ⟨c, hc, hclaim⟩ := hop.caller x hx
      exact ⟨c, by simp only [List.mem_append] at hc ⊢; tauto, hclaim⟩
    · intro id job hevent c hc
      by_cases hfirst : c ∈ first
      · simpa [hevent, JobEvent.jobId] using hdisjoint c hfirst op (by simp)
      · exact hop.fresh id job hevent c (by simp only [List.mem_append] at hc ⊢; tauto)

/-- The log of one job is admissible when the whole log is. -/
theorem LogOk.jobLog {log : List LogEntry} (h : LogOk log) (id : JobId) : LogOk (jobLog log id) := by
  intro pre op post hsplit
  obtain ⟨front, rest, rfl, hfront, hrest⟩ := List.filter_eq_append_iff.mp hsplit
  obtain ⟨skipped, tail, rfl, hskip, hkeep, -⟩ := List.filter_eq_cons_iff.mp hrest
  have hop : Admissible (front ++ skipped) op := h (front ++ skipped) op tail (by simp)
  have hid : op.event.jobId = id := by simpa using hkeep
  constructor
  · intro x hx
    obtain ⟨c, hc, leaseSeconds, hevent⟩ := hop.caller x hx
    have hcid : c.event.jobId = id := by
      rw [hevent]
      exact (JobEvent.jobId_of_caller hx).trans hid
    refine ⟨c, ?_, leaseSeconds, hevent⟩
    rcases List.mem_append.mp hc with hmem | hmem
    · rw [← hfront]
      exact List.mem_filter.mpr ⟨hmem, by simpa using hcid⟩
    · exact absurd (by simpa using hcid) (hskip c hmem)
  · intro id' job hevent c hc
    rw [← hfront] at hc
    exact hop.fresh id' job hevent c (List.mem_append_left _ (List.mem_filter.mp hc).1)

/-- Legal and admissible operations on one job make a job history. -/
theorem JobHistory.of_evolves {id : JobId} {log : List LogEntry} {start row : Option JobEntry}
    (h : jobDynamics.Evolves log start row) (hstart : start = none) (hlog : LogOk log)
    (hid : ∀ op ∈ log, op.event.jobId = id) : JobHistory id log row := by
  induction h with
  | nil row => subst hstart; exact .nil
  | @snoc events op start before after _ hacts ih =>
    have hbefore := ih hstart hlog.of_append fun op' hop' => hid op' (List.mem_append_left _ hop')
    exact hbefore.snoc hacts (hlog events op [] rfl) (hid op (by simp))

/-- In a replayed table every job has a history. -/
theorem jobHistory_of_replays {log : List LogEntry} {jobs : JobTable}
    (h : jobDynamics.Replays log jobs) (hlog : LogOk log) (id : JobId) :
    JobHistory id (jobLog log id) (jobs.get id) := by
  refine .of_evolves (h.evolves id) rfl (hlog.jobLog id) fun op hop => ?_
  simpa using (List.mem_filter.mp hop).2

/-- The last operation of a history was legal and admissible in the state before it. -/
theorem JobHistory.of_snoc {id : JobId} {log : List LogEntry} {op : LogEntry} {row : Option JobEntry}
    (h : JobHistory id (log ++ [op]) row) :
    ∃ before, JobHistory id log before ∧ JobActs op before row ∧ Admissible log op := by
  generalize hlog : log ++ [op] = whole at h
  cases h with
  | nil => simp at hlog
  | snoc hbefore hacts hop =>
    obtain ⟨rfl, hlast⟩ := List.append_inj' hlog rfl
    obtain rfl : op = _ := by simpa using hlast
    exact ⟨_, hbefore, hacts, hop⟩

/-- An operation determines what becomes of its job. -/
theorem JobActs.unique {op : LogEntry} {before after after' : Option JobEntry}
    (h : JobActs op before after) (h' : JobActs op before after') : after = after' := by
  cases h <;> cases h' <;> rfl

/-- The log of a job determines its state. -/
theorem JobHistory.unique {id : JobId} {log : List LogEntry} {row row' : Option JobEntry}
    (h : JobHistory id log row) (h' : JobHistory id log row') : row = row' := by
  induction h generalizing row' with
  | nil =>
    generalize hlog : ([] : List LogEntry) = log at h'
    cases h' with
    | nil => rfl
    | snoc => simp at hlog
  | snoc _ hacts _ _ ih =>
    obtain ⟨before', hbefore', hacts', -⟩ := h'.of_snoc
    obtain rfl := ih hbefore'
    exact hacts.unique hacts'

/-- The operations of a history are all on its job. -/
theorem JobHistory.jobId_of_mem {id : JobId} {log : List LogEntry} {row : Option JobEntry}
    (h : JobHistory id log row) {op : LogEntry} (hop : op ∈ log) : op.event.jobId = id := by
  induction h with
  | nil => simp at hop
  | snoc _ _ _ hid ih =>
    rcases List.mem_append.mp hop with hmem | hmem
    · exact ih hmem
    · rw [List.mem_singleton.mp hmem]
      exact hid

/-- Only an insertion creates a row, and it is the first operation of the history. -/
theorem JobHistory.eq_nil_of_inserted {id : JobId} {log : List LogEntry} {row : Option JobEntry}
    (h : JobHistory id log row) {op : LogEntry} {entry : JobEntry}
    (hacts : JobActs op none (some entry))
    (hop : Admissible log op) (hid : op.event.jobId = id) : log = [] := by
  cases hacts with
  | inserted hmax =>
    apply List.eq_nil_iff_forall_not_mem.mpr
    intro c hc
    exact hop.fresh _ _ rfl c hc ((h.jobId_of_mem hc).trans hid.symm)

/-- A property of a job and its log holds throughout if the insertion establishes it and every
later operation keeps it. -/
theorem JobHistory.invariant {id : JobId} {I : List LogEntry → JobEntry → Prop}
    (hinsert : ∀ op entry, JobActs op none (some entry) → I [op] entry)
    (hstep : ∀ log op before after, JobHistory id log (some before) → Admissible log op →
      JobActs op (some before) (some after) → I log before → I (log ++ [op]) after)
    {log : List LogEntry} {entry : JobEntry} (h : JobHistory id log (some entry)) : I log entry := by
  generalize hrow : some entry = row at h
  induction h generalizing entry with
  | nil => cases hrow
  | @snoc log op before after hbefore hacts hop hid ih =>
    subst hrow
    cases before with
    | none =>
      rw [hbefore.eq_nil_of_inserted hacts hop hid]
      exact hinsert op entry hacts
    | some before => exact hstep log op before entry hbefore hop hacts (ih rfl)

/-- Every prefix of a history is the history of an earlier state of the job. -/
theorem JobHistory.of_append {id : JobId} {log rest : List LogEntry} {row : Option JobEntry}
    (h : JobHistory id (log ++ rest) row) : ∃ before, JobHistory id log before := by
  induction rest using List.reverseRecOn generalizing row with
  | nil => exact ⟨row, by simpa using h⟩
  | append_singleton rest op ih =>
    rw [← List.append_assoc] at h
    obtain ⟨before, hbefore, -, -⟩ := h.of_snoc
    exact ih hbefore

/-- Every operation of a history was legal and admissible in the state before it. -/
theorem JobHistory.split {id : JobId} {pre post : List LogEntry} {op : LogEntry}
    {row : Option JobEntry} (h : JobHistory id (pre ++ op :: post) row) :
    ∃ before after, JobHistory id pre before ∧ JobActs op before after ∧ Admissible pre op := by
  rw [List.append_cons] at h
  obtain ⟨after, hafter⟩ := h.of_append
  obtain ⟨before, hbefore, hacts, hop⟩ := hafter.of_snoc
  exact ⟨before, after, hbefore, hacts, hop⟩

end PgRelay
