import PgRelay.Attempts
import PgRelay.Programs

/-!
# Pending jobs that no claim will take

A claim passes over a pending job that has used up its attempts, and no other operation gives it
an attempt back or ends it. Recovery decides between `pending` and `dead_letter` on the live row;
`fail_job` decides on the row its claim returned. No job is ever stranded in a run exactly if the two
decisions would have been the same for every failure that was recorded in it.
-/

namespace PgRelay

open RowStore

/-- A pending job has an attempt left. -/
def HasAttemptLeft (j : JobRow) : Prop := j.status = .pending → j.attemptCount < j.maxAttempts

/-- Every pending job has an attempt left, and so is eligible from the time it is available. -/
def NoStranded (s : State) : Prop :=
  ∀ id entry, s.jobs.get id = some entry → entry.row.status = .pending →
    entry.row.attemptCount < entry.row.maxAttempts ∧
      ∀ now, entry.row.availableAt ≤ now → Claimable now entry.row

/-- When the recording of a failure is committed, the decision it has taken on the row of its claim
is the one the row in the table gives. -/
def DecidedOnLiveRow (s : State) (a : Action) : Prop :=
  ∀ t T x args entry, a = .commit t → s.txns t = some T → T.task = .call x (.fail args) (.finished true) →
    s.jobs.get x.job.id = some entry → shouldRetry x.job args = shouldRetry entry.row args

/-- No job is stranded exactly if every job that is pending has an attempt left. -/
theorem noStranded_iff_hasAttemptLeft {s : State} :
    NoStranded s ↔ ∀ id entry, s.jobs.get id = some entry → HasAttemptLeft entry.row := by
  refine forall₃_congr fun id entry hget => ⟨fun h hpending => (h hpending).1, fun h hpending => ?_⟩
  exact ⟨h hpending, fun now hnow => ⟨hpending, hnow, h hpending⟩⟩

/-- An operation strands a job only if it is a failure to be retried after the last attempt. -/
theorem HasAttemptLeft.step {op : LogEntry} {before after : JobEntry} (h : HasAttemptLeft before.row)
    (hrow : RowOk before.row) (hacts : JobActs op (some before) (some after))
    (hfail : ∀ x args, op.event = .failed x args → shouldRetry x.job args = true →
      before.row.attemptCount < before.row.maxAttempts) : HasAttemptLeft after.row := by
  intro hpending
  cases hacts with
  | claimed hclaim hx =>
    rw [hx] at hpending
    cases hpending
  | extended howned => exact absurd (howned.2.symm.trans hpending) (by decide)
  | @returned t now x _ howned =>
    have hcount := hrow.returnToPending_count howned.2 now
    have hle := hrow.count_le
    change (returnToPending now before.row).attemptCount < before.row.maxAttempts
    omega
  | completed howned => cases hpending
  | @failed t now x args _ howned =>
    apply hfail x args rfl
    by_contra hretry
    simp [failJob, failUpdate, Bool.eq_false_of_not_eq_true hretry] at hpending
  | recovered hexpired =>
    by_contra hlt
    have hmax : before.row.maxAttempts ≤ before.row.attemptCount := Int.not_lt.mp hlt
    simp [recoverExpiredLease, recoverUpdate, hmax] at hpending
  | cancelled hpending' => cases hpending
  | unlinked => exact h hpending

/-- Operations without failures strand no job. -/
theorem Evolves.hasAttemptLeft {events : List LogEntry} {start row : Option JobEntry}
    (h : jobDynamics.Evolves events start row)
    (hstart : ∀ entry, start = some entry → RowOk entry.row ∧ HasAttemptLeft entry.row)
    (hfail : ∀ op ∈ events, ∀ x args, op.event ≠ .failed x args) :
    ∀ entry, row = some entry → RowOk entry.row ∧ HasAttemptLeft entry.row := by
  induction h with
  | nil row => exact hstart
  | @snoc events op start before after _ hacts ih =>
    intro entry hentry
    subst hentry
    have hbefore := ih hstart fun op' hop' => hfail op' (List.mem_append_left _ hop')
    cases before with
    | none =>
      cases hacts with
      | inserted hmax => exact ⟨rowOk_insertJob _ _ hmax, fun _ => hmax⟩
    | some before =>
      obtain ⟨hrow, hleft⟩ := hbefore before rfl
      refine ⟨hrow.step hacts, hleft.step hrow hacts fun x args hevent => ?_⟩
      exact absurd hevent (hfail op (List.mem_append_right _ (List.mem_singleton_self _)) x args)

/-- A failure is performed by a call of `fail_job` that has taken effect, as its only operation. -/
theorem Task.Writes.failed {t : TxnId} {task : Task} {events : List JobEvent}
    (h : task.Writes t events) {x : Execution} {args : FailArgs} (hmem : .failed x args ∈ events) :
    task = .call x (.fail args) (.finished true) ∧ events = [.failed x args] := by
  rcases h.mem_cases hmem with ⟨_, _, -, ⟨id, heq⟩ | ⟨row, heq⟩⟩ | ⟨y, op, htask, heq, hevents⟩ | ⟨id, heq⟩ |
    ⟨id, job, heq⟩ | ⟨id, heq⟩ | ⟨id, args', heq⟩
  case inr.inl =>
    cases op <;> cases heq
    exact ⟨htask, hevents⟩
  all_goals cases heq

/-- What the commit of a recorded failure makes of the job. -/
theorem Reachable.failed_commit {s : State} (h : Reachable s) {t : TxnId} {T : Txn}
    (hT : s.txns t = some T)
    {x : Execution} {args : FailArgs} (hevents : T.events = [.failed x args]) :
    ∃ entry now, s.jobs.get x.job.id = some entry ∧ OwnedBy x.worker entry.row ∧
      T.view s = s.jobs.put (failJob now x.job x.worker args entry) ∧
      (failJob now x.job x.worker args entry).id = x.job.id := by
  have hconsistent := (h.inv.txn t T hT).consistent
  obtain ⟨⟨⟨t', now, event⟩, version⟩, hchanges, rfl : event = _⟩ := List.map_eq_singleton_iff.mp hevents
  rw [hchanges] at hconsistent
  have hacts : JobActs ⟨t', now, .failed x args⟩ (s.jobs.get x.job.id) version := hconsistent.1
  generalize hget : s.jobs.get x.job.id = before at hacts
  cases hacts with
  | @failed _ _ _ _ entry howned =>
    refine ⟨entry, now, rfl, howned, ?_, ?_⟩
    · rw [Txn.view, hchanges]
      rfl
    · exact (Table.key_of_get hget : entry.id = x.job.id)

/-- The decision on an outdated row never gives up while the live row has an attempt left. -/
theorem shouldRetry_of_live {s : State} (h : Reachable s) {x : Execution} {args : FailArgs}
    {entry : JobEntry}
    (hget : s.jobs.get x.job.id = some entry) (howned : OwnedBy x.worker entry.row)
    (hclaim : ∃ c ∈ s.log, ∃ leaseSeconds, c.event = .claimed x leaseSeconds)
    (hlive : shouldRetry entry.row args = true) : shouldRetry x.job args = true := by
  obtain ⟨c, hc, leaseSeconds, hevent⟩ := hclaim
  have hhistory : JobHistory x.job.id (jobLog s.log x.job.id) (some entry) := hget ▸ h.jobHistory _
  have hmem : c ∈ jobLog s.log x.job.id := List.mem_filter.mpr ⟨hc, by simp [hevent, JobEvent.jobId]⟩
  obtain ⟨hmax, hcount⟩ := hhistory.snapshotsBelow c hmem x leaseSeconds hevent
  simp only [inFlight, howned.2, if_true] at hcount
  simp only [shouldRetry, Bool.and_eq_true, decide_eq_true_eq] at hlive ⊢
  exact ⟨hlive.1, by omega⟩

/-- A commit strands no job exactly if the failure it records, if any, was decided on the live row. -/
theorem noStranded_commit_iff {s : State} (h : Reachable s) (hs : NoStranded s) {t : TxnId} {T : Txn}
    (hT : s.txns t = some T) : NoStranded (s.commit t T) ↔ DecidedOnLiveRow s (.commit t) := by
  rw [noStranded_iff_hasAttemptLeft] at hs ⊢
  by_cases hfail : ∃ x args, .failed x args ∈ T.events
  · obtain ⟨x, args, hmem⟩ := hfail
    obtain ⟨htask, hevents⟩ := (h.writes hT).failed hmem
    obtain ⟨entry, now, hget, howned, hview, hid⟩ := h.failed_commit hT hevents
    have hrow (id : JobId) : (s.commit t T).jobs.get id =
        if x.job.id = id then some (failJob now x.job x.worker args entry) else s.jobs.get id := by
      change (T.view s).get id = _
      rw [hview, Table.get_put, hid]
    constructor
    · intro hnext t' T' x' args' entry' hcommit hT' htask' hget'
      obtain rfl : t = t' := by simpa using hcommit
      obtain rfl : T = T' := Option.some.inj (hT.symm.trans hT')
      obtain ⟨rfl, rfl⟩ : x = x' ∧ args = args' := by simpa using htask.symm.trans htask'
      obtain rfl : entry = entry' := Option.some.inj (hget.symm.trans hget')
      cases hretry : shouldRetry x.job args with
      | true =>
        have hpending : (failJob now x.job x.worker args entry).row.status = .pending := by
          simp [failJob, failUpdate, hretry]
        have hleft : entry.row.attemptCount < entry.row.maxAttempts :=
          hnext x.job.id (failJob now x.job x.worker args entry) (by rw [hrow, if_pos rfl]) hpending
        simp only [shouldRetry, Bool.and_eq_true] at hretry
        simp [shouldRetry, hretry.1, hleft]
      | false =>
        by_contra hlive
        have hclaim := h.inv.executions x (by simpa only [TaskOk, htask] using (h.inv.txn t T hT).task)
        rw [shouldRetry_of_live h hget howned hclaim (Bool.eq_true_of_not_eq_false (Ne.symm hlive))] at hretry
        cases hretry
    · intro hdecided id after hafter
      rw [hrow] at hafter
      split_ifs at hafter with hid'
      · obtain rfl := Option.some.inj hafter
        have hhistory : JobHistory x.job.id (jobLog s.log x.job.id) (some entry) := hget ▸ h.jobHistory _
        have hacts : JobActs ⟨t, now, .failed x args⟩ (some entry) (some (failJob now x.job x.worker args entry)) :=
          .failed howned
        apply HasAttemptLeft.step (hs _ _ hget) hhistory.rowOk hacts
        intro x' args' hevent hretry
        obtain ⟨rfl, rfl⟩ : x = x' ∧ args = args' := by simpa using hevent
        rw [hdecided t T x args entry rfl hT htask hget] at hretry
        simp only [shouldRetry, Bool.and_eq_true, decide_eq_true_eq] at hretry
        exact hretry.2
      · exact hs id after hafter
  · -- Without a failure the condition holds vacuously, and so does the conclusion.
    refine iff_of_true (fun id after hafter => ?_) fun t' T' x args entry hcommit hT' htask => ?_
    · refine (Evolves.hasAttemptLeft ((h.inv.txn t T hT).consistent.evolves id) (fun entry hget => ?_)
        (fun op hop x args hevent => hfail ⟨x, args, ?_⟩) after hafter).2
      · exact ⟨(hget ▸ h.jobHistory id : JobHistory id (jobLog s.log id) (some entry)).rowOk, hs id entry hget⟩
      · obtain ⟨c, hc, rfl⟩ := List.mem_map.mp (List.mem_filter.mp hop).1
        exact hevent ▸ List.mem_map_of_mem hc
    · obtain rfl : t = t' := by simpa using hcommit
      obtain rfl : T = T' := Option.some.inj (hT.symm.trans hT')
      have hwrites := h.writes hT
      rw [htask] at hwrites
      have hevents : T.events = [.failed x args] := hwrites
      exact absurd ⟨x, args, by simp [hevents]⟩ hfail

/-- No job is ever stranded in a run exactly if every failure recorded in it was decided as the live
row would have decided. -/
theorem noStranded_throughout_iff (clock : Timestamp) (acts : List Action) :
    Throughout step NoStranded (State.init clock) acts ↔
      AlwaysMeets step DecidedOnLiveRow (State.init clock) acts := by
  refine throughout_iff_alwaysMeets (I := Reachable) ?_ ?_ ⟨clock, .refl⟩ (fun id entry hget => by cases hget) acts
  · rintro s a s' ⟨start, hrun⟩ hs
    exact ⟨start, hrun.tail ⟨a, trivial, hs⟩⟩
  · intro s a s' hreach hstranded hs
    rcases jobs_of_step hs with ⟨t, T, rfl, hT, -, rfl⟩ | ⟨ha, hjobs, -⟩
    · exact noStranded_commit_iff hreach hstranded hT
    · refine iff_of_true ?_ fun t T x args entry hcommit => absurd hcommit (ha t)
      rw [NoStranded, hjobs]
      exact hstranded

/-- A job of two attempts is claimed, recovered and claimed again by the same worker; then the
execution of the first claim reports a failure to be retried. -/
def strandedRun : List Action :=
  claimedRun ++ .tick 61000000 :: transaction 2 (.claimLoop ⟨"w", ["mail"], 1, 60, 10⟩) 11 ++
    transaction 3 (.call 0 (.fail ⟨true, false, 10, 5, some "Error", none, none, none⟩)) 2

/-- The job is pending with all of its attempts used up. -/
theorem not_noStranded_strandedRun : ¬ ∀ s, Reachable s → NoStranded s := by
  intro hall
  have hrow : ((stateAfter 0 strandedRun).jobs.get 0).map (fun entry =>
      (entry.row.status, entry.row.attemptCount, entry.row.maxAttempts)) = some (.pending, 2, 2) := by
    decide +kernel
  obtain ⟨entry, hget, hcolumns⟩ := Option.map_eq_some_iff.mp hrow
  simp only [Prod.mk.injEq] at hcolumns
  obtain ⟨hpending, hcount, hmax⟩ := hcolumns
  have hlt := (hall _ (reachable_stateAfter 0 strandedRun) 0 entry hget hpending).1
  omega

end PgRelay
