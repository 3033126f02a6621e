import PgRelay.Attempts
import PgRelay.Isolation

/-!
# Leases and the calls made under them

The log determines at every moment which claim granted the lease on a job and until when it lasts,
and the row agrees. A call of an execution tests the worker's id and the status, so it finds the
lease of its own worker, but it cannot tell two claims of the same worker apart. So the calls are
fenced where they are begun for the worker's latest claim of the job only, and where a worker does not
claim a job again while it still has a call for it under way.
-/

namespace PgRelay

open RowStore

/-- The lease on a job after an operation, given the lease before. -/
def JobEvent.leaseAfter (lease : Option Execution) : JobEvent → Option Execution
  | .claimed x _ => some x
  | .returned _ | .completed _ _ | .failed _ _ | .recovered _ => none
  | .inserted _ _ | .extended _ _ | .cancelled _ | .unlinked _ | .deleted _ _ => lease

/-- The execution whose claim granted the lease that is on the job now. -/
def currentLease (log : List LogEntry) : Option Execution :=
  log.foldl (fun lease op => op.event.leaseAfter lease) none

/-- The end of the lease after an operation, given the end before. -/
def LogEntry.deadlineAfter (deadline : Option Timestamp) (op : LogEntry) : Option Timestamp :=
  match op.event with
  | .claimed _ leaseSeconds | .extended _ leaseSeconds => some (op.now + seconds leaseSeconds)
  | _ => deadline

/-- The end of the last lease, as its claim or the last extension has set it. -/
def leaseDeadline (log : List LogEntry) : Option Timestamp := log.foldl LogEntry.deadlineAfter none

/-- The last claim of a job by one worker. -/
def latestClaim (worker : WorkerId) (log : List LogEntry) : Option Execution :=
  log.foldl (fun latest op => match op.event with
    | .claimed x _ => if x.worker = worker then some x else latest
    | _ => latest) none

/-- One more operation sets the current lease or leaves it. -/
@[simp] theorem currentLease_snoc (log : List LogEntry) (op : LogEntry) :
    currentLease (log ++ [op]) = op.event.leaseAfter (currentLease log) := by
  simp [currentLease]

/-- One more operation sets the deadline of the lease or leaves it. -/
@[simp] theorem leaseDeadline_snoc (log : List LogEntry) (op : LogEntry) :
    leaseDeadline (log ++ [op]) = op.deadlineAfter (leaseDeadline log) := by
  simp [leaseDeadline]

/-- The row of a job shows the lease that the log determines. -/
structure LeaseShown (log : List LogEntry) (entry : JobEntry) : Prop where
  leased : entry.row.status = .leased ↔ currentLease log ≠ none
  holder : ∀ x, currentLease log = some x → entry.row.lockedBy = some x.worker
  deadline : entry.row.status = .leased → entry.row.lockedUntil = leaseDeadline log

/-- Every operation changes the row and the lease in the same way. -/
theorem LeaseShown.step {log : List LogEntry} {op : LogEntry} {before after : JobEntry}
    (h : LeaseShown log before) (hacts : JobActs op (some before) (some after)) :
    LeaseShown (log ++ [op]) after := by
  obtain ⟨hleased, hholder, hdeadline⟩ := h
  cases hacts with
  | @claimed t now x leaseSeconds _ hclaim hx =>
    have hjob : x.job = claimUpdate now x.worker leaseSeconds before.row := congrArg Execution.job hx
    refine ⟨?_, fun y hy => ?_, fun _ => ?_⟩
    · simp [hjob, claimUpdate, JobEvent.leaseAfter]
    · obtain rfl : x = y := by simpa [JobEvent.leaseAfter] using hy
      simp [hjob, claimUpdate]
    · simp [hjob, claimUpdate, LogEntry.deadlineAfter]
  | extended howned =>
    refine ⟨?_, fun y hy => ?_, fun _ => ?_⟩
    · simpa [JobEvent.leaseAfter, extendLease] using hleased
    · exact hholder y (by simpa [JobEvent.leaseAfter] using hy)
    · simp [extendLease, LogEntry.deadlineAfter]
  | returned howned => exact ⟨by simp [JobEvent.leaseAfter, returnToPending],
      by simp [JobEvent.leaseAfter], by simp [returnToPending]⟩
  | completed howned => exact ⟨by simp [JobEvent.leaseAfter, completeJob, completeUpdate],
      by simp [JobEvent.leaseAfter], by simp [completeJob, completeUpdate]⟩
  | @failed t now x args _ howned =>
    have hstatus : (failJob now x.job x.worker args before).row.status ≠ .leased := by
      cases hretry : shouldRetry x.job args <;> simp [failJob, failUpdate, hretry]
    exact ⟨by simp [JobEvent.leaseAfter, hstatus], by simp [JobEvent.leaseAfter], fun hl => absurd hl hstatus⟩
  | @recovered t now id _ hexpired =>
    have hstatus : (recoverExpiredLease now before).row.status ≠ .leased := by
      by_cases hmax : before.row.maxAttempts ≤ before.row.attemptCount <;>
        simp [recoverExpiredLease, recoverUpdate, hmax]
    exact ⟨by simp [JobEvent.leaseAfter, hstatus], by simp [JobEvent.leaseAfter], fun hl => absurd hl hstatus⟩
  | cancelled hpending =>
    have hnone : currentLease log = none := by
      by_contra hsome
      simp [hleased.mpr hsome] at hpending
    exact ⟨by simp [JobEvent.leaseAfter, cancelUpdate, hnone], by simp [JobEvent.leaseAfter, hnone],
      by simp [cancelUpdate]⟩
  | unlinked =>
    refine ⟨?_, fun y hy => ?_, fun hl => ?_⟩
    · simpa [JobEvent.leaseAfter, unlinkReplay] using hleased
    · exact hholder y (by simpa [JobEvent.leaseAfter] using hy)
    · simpa [LogEntry.deadlineAfter, unlinkReplay] using hdeadline hl

/-- The row shows the lease throughout the history of a job. -/
theorem JobHistory.leaseShown {id : JobId} {log : List LogEntry} {entry : JobEntry}
    (h : JobHistory id log (some entry)) : LeaseShown log entry := by
  refine h.invariant (fun op entry hacts => ?_) fun log op before after _ _ hacts hshown => hshown.step hacts
  cases hacts with
  | inserted hmax => exact ⟨by simp [insertJob, currentLease, JobEvent.leaseAfter],
      by simp [currentLease, JobEvent.leaseAfter], by simp [insertJob]⟩

/-- The lease on a job is the latest claim of its worker. -/
theorem latestClaim_of_currentLease {log : List LogEntry} {x : Execution}
    (h : currentLease log = some x) :
    latestClaim x.worker log = some x := by
  induction log using List.reverseRecOn with
  | nil => cases h
  | append_singleton log op ih =>
    rw [currentLease_snoc] at h
    simp only [latestClaim, List.foldl_append, List.foldl_cons, List.foldl_nil]
    cases hevent : op.event with
    | claimed y leaseSeconds =>
      obtain rfl : y = x := by simpa [hevent, JobEvent.leaseAfter] using h
      simp
    | inserted | extended | cancelled | unlinked | deleted =>
      exact ih (by simpa [hevent, JobEvent.leaseAfter] using h)
    | returned | completed | failed | recovered => simp [hevent, JobEvent.leaseAfter] at h

/-! ## Fencing -/

/-- Every call of an execution that took effect found the lease of that execution. -/
def Fenced (log : List LogEntry) : Prop :=
  ∀ pre op post x, log = pre ++ op :: post → op.event.caller = some x → currentLease pre = some x

/-- Every call of an execution that took effect came from the worker's latest claim of the job. -/
def LatestCalls (log : List LogEntry) : Prop :=
  ∀ pre op post x, log = pre ++ op :: post → op.event.caller = some x → latestClaim x.worker pre = some x

/-- A call takes effect only on a job leased to the worker of its execution. -/
theorem JobActs.owned {op : LogEntry} {before after : Option JobEntry}
    (hacts : JobActs op before after) {x : Execution} (hcaller : op.event.caller = some x) :
    ∃ entry, before = some entry ∧ OwnedBy x.worker entry.row := by
  cases hacts with
  | extended howned | returned howned | completed howned | failed howned =>
    obtain rfl := Option.some.inj hcaller
    exact ⟨_, rfl, howned⟩
  | _ => cases hcaller

/-- A call finds a lease of its own worker, if not of its own claim. -/
theorem JobHistory.lease_of_caller {id : JobId} {pre post : List LogEntry} {op : LogEntry}
    {row : Option JobEntry} (h : JobHistory id (pre ++ op :: post) row) {x : Execution}
    (hcaller : op.event.caller = some x) : ∃ y, currentLease pre = some y ∧ y.worker = x.worker := by
  obtain ⟨before, after, hbefore, hacts, -⟩ := h.split
  obtain ⟨entry, rfl, howned⟩ := hacts.owned hcaller
  have hshown := hbefore.leaseShown
  obtain ⟨y, hy⟩ := Option.ne_none_iff_exists'.mp (hshown.leased.mp howned.2)
  exact ⟨y, hy, Option.some.inj ((hshown.holder y hy).symm.trans howned.1)⟩

/-- In a history the effective calls come from the current lease exactly if each comes from the latest claim of its
worker. -/
theorem JobHistory.fenced_iff {id : JobId} {log : List LogEntry} {row : Option JobEntry}
    (h : JobHistory id log row) : Fenced log ↔ LatestCalls log := by
  refine forall₄_congr fun pre op post x => forall₂_congr fun hsplit hcaller => ?_
  refine ⟨latestClaim_of_currentLease, fun hlatest => ?_⟩
  subst hsplit
  obtain ⟨y, hy, hworker⟩ := h.lease_of_caller hcaller
  have hlatest' := latestClaim_of_currentLease hy
  rw [hworker, hlatest] at hlatest'
  rw [hy, Option.some.inj hlatest']

/-- The calls that took effect found the lease of their own claim, and the others change nothing. -/
def LeaseFencing (s : State) : Prop :=
  (∀ id, Fenced (jobLog s.log id)) ∧
    ∀ t T x op, s.txns t = some T → T.task = .call x op (.finished false) → T.view s = s.jobs

/-- The calls are fenced exactly if each one that took effect came from the worker's latest claim. -/
theorem leaseFencing_iff {s : State} (h : Reachable s) :
    LeaseFencing s ↔ ∀ id, LatestCalls (jobLog s.log id) := by
  constructor
  · rintro ⟨hfenced, -⟩ id
    exact (h.jobHistory id).fenced_iff.mp (hfenced id)
  · intro hlatest
    refine ⟨fun id => (h.jobHistory id).fenced_iff.mpr (hlatest id), fun t T x op hT htask => ?_⟩
    have hwrites := h.writes hT
    rw [htask] at hwrites
    exact Txn.view_eq_of_events s hwrites

/-! ## Runs that call for the latest claim -/

/-- The execution for which a call is under way: begun, and not yet decided. -/
def Txn.pendingCall (T : Txn) : Option Execution :=
  match T.task with
  | .call x _ .begin | .call x _ .matched => some x
  | _ => none

/-- Which calls are made, and what a worker leaves alone meanwhile. An execution begins a call only while
its claim is the latest one of the job by its worker, and no claim of a job by the worker is committed
while an execution of the worker has a call for that job under way. -/
def CallsForLatestClaim (s : State) : Action → Prop
  | .begin (.call i _) => ∀ x ∈ s.executions[i]?, latestClaim x.worker (jobLog s.log x.job.id) = some x
  | .commit t => ∀ T ∈ s.txns t, ∀ y ∈ T.task.started t, ∀ u < s.nextTxn,
      ∀ x ∈ (s.txns u).bind Txn.pendingCall, x.worker = y.worker → x.job.id ≠ y.job.id
  | _ => True

/-- The latest claim stays the latest while the worker claims the job no more. -/
theorem latestClaim_append {worker : WorkerId} {log rest : List LogEntry}
    (h : ∀ op ∈ rest, ∀ y leaseSeconds, op.event = .claimed y leaseSeconds → y.worker ≠ worker) :
    latestClaim worker (log ++ rest) = latestClaim worker log := by
  induction rest using List.reverseRecOn with
  | nil => rw [List.append_nil]
  | append_singleton rest op ih =>
    rw [← ih fun op' hop' => h op' (List.mem_append_left _ hop'), ← List.append_assoc]
    have hop := h op (List.mem_append_right _ (List.mem_singleton_self _))
    simp only [latestClaim, List.foldl_append, List.foldl_cons, List.foldl_nil]
    cases hevent : op.event with
    | claimed y leaseSeconds => simp [hop y leaseSeconds hevent]
    | _ => rfl

/-- A claim that is written starts its execution with the commit. -/
theorem Task.Writes.started_of_claimed {t : TxnId} {task : Task} {events : List JobEvent} {y : Execution}
    {leaseSeconds : Int} (h : task.Writes t events) (hmem : .claimed y leaseSeconds ∈ events) :
    y ∈ task.started t := by
  obtain ⟨args, rows, rfl, hrow⟩ := h.of_claimed hmem
  obtain ⟨ids, rfl⟩ := h
  rcases List.mem_append.mp hmem with hmem | hmem
  · obtain ⟨_, -, heq⟩ := List.mem_map.mp hmem
    cases heq
  · obtain ⟨row, hrow, heq⟩ := List.mem_map.mp hmem
    obtain ⟨rfl, -⟩ := JobEvent.claimed.inj heq
    exact List.mem_map_of_mem hrow

/-- A call that has taken effect holds the lock of its job. -/
theorem Reachable.jobLock_of_effective {s : State} (h : Reachable s) {t : TxnId} {T : Txn}
    (hT : s.txns t = some T) {x : Execution} {op : CallOp} (htask : T.task = .call x op (.finished true)) :
    s.jobLocks x.job.id = some t := by
  have hwrites := h.writes hT
  rw [htask] at hwrites
  have hmem : op.event x ∈ T.events := by
    rw [show T.events = [op.event x] from hwrites]
    exact List.mem_singleton_self _
  obtain ⟨c, hc, hevent⟩ := List.mem_map.mp hmem
  have hlock := (h.inv.txn t T hT).locked c hc
  rw [hevent] at hlock
  cases op <;> exact hlock

/-- A call that is open, and not decided against, is one of the worker's latest claim of the job: until
the decision by the condition on claims, and from then on by the lock of the job. -/
theorem latestClaim_of_call {clock : Timestamp} {s : State}
    (h : ReachesUnder step CallsForLatestClaim (State.init clock) s) :
    ∀ t T, s.txns t = some T → ∀ x op pc, T.task = .call x op pc → pc ≠ .finished false →
      latestClaim x.worker (jobLog s.log x.job.id) = some x := by
  refine ReachesUnder.txn_rule (P := fun s _ T => ∀ x op pc, T.task = .call x op pc → pc ≠ .finished false →
    latestClaim x.worker (jobLog s.log x.job.id) = some x) ?_ ?_ ?_ h
  · intro s request task hreach hok hr x op pc htask _
    obtain rfl : task = .call x op pc := htask
    cases request with
    | call i op' =>
      obtain ⟨y, hy, heq⟩ := Option.map_eq_some_iff.mp hr
      obtain ⟨rfl, -⟩ := Task.call.inj heq
      exact hok y hy
    | enqueue job =>
      simp only [Request.task] at hr
      split_ifs at hr
      cases hr
    | _ => cases hr
  · intro s t T a effect hreach hT _ he hold x op pc' htask _
    have hleads := he.steps.leadsTo
    rw [show effect.task = .call x op pc' from htask] at hleads
    obtain ⟨pc, hpc⟩ := hleads.call
    exact hold x op pc hpc (he.steps.call_ne_finished hpc false)
  · intro s a s' t T hreach hok hs hT hT' _ hold x op pc htask hpc
    have hlatest := hold x op pc htask hpc
    rcases step_cases hs with ⟨elapsed, -, rfl⟩ | ⟨request, task, -, hr, rfl⟩ |
      ⟨u, U, effect, hU, he, rfl⟩ | ⟨u, U, rfl, hU, -, rfl⟩ | ⟨u, U, -, -, rfl⟩
    · exact hlatest
    · exact hlatest
    · exact hlatest
    · change latestClaim x.worker (jobLog (s.log ++ U.changes.map Change.event) x.job.id) = some x
      rw [jobLog_append, latestClaim_append fun op' hop' y leaseSeconds hevent hworker => ?_, hlatest]
      obtain ⟨hmem, hjob⟩ := List.mem_filter.mp hop'
      obtain ⟨c, hc, rfl⟩ := List.mem_map.mp hmem
      have hid : y.job.id = x.job.id := by simpa [hevent, JobEvent.jobId] using hjob
      have hclaimed : .claimed y leaseSeconds ∈ U.events := List.mem_map.mpr ⟨c, hc, hevent⟩
      have hstarted := (hreach.writes hU).started_of_claimed hclaimed
      have hpending (hcall : T.pendingCall = some x) : False :=
        hok U hU y hstarted t (hreach.inv.lt_nextTxn hT) x (by rw [hT]; exact hcall) hworker.symm hid.symm
      cases pc with
      | begin => exact hpending (by rw [Txn.pendingCall, htask])
      | matched => exact hpending (by rw [Txn.pendingCall, htask])
      | finished updated =>
        obtain rfl : updated = true := by simpa using hpc
        have hlock := hreach.jobLock_of_effective hT htask
        have hlock' := (hreach.inv.txn u U hU).locked c hc
        rw [hevent, show (JobEvent.claimed y leaseSeconds).jobId = x.job.id from hid, hlock] at hlock'
        exact (txns_close (t := u) hT').1 (Option.some.inj hlock')
    · exact hlatest

/-- More operations leave all calls with the latest claims if their own calls are made for such. -/
theorem LatestCalls.append {log rest : List LogEntry} (h : LatestCalls log)
    (hrest : ∀ pre op post x, rest = pre ++ op :: post → op.event.caller = some x →
      latestClaim x.worker (log ++ pre) = some x) : LatestCalls (log ++ rest) := by
  intro pre op post x hsplit hcaller
  rcases List.append_eq_append_iff.mp hsplit with ⟨front, rfl, hfront⟩ | ⟨tail, hlog, htail⟩
  · exact hrest front op post x hfront hcaller
  · cases tail with
    | nil =>
      rw [List.append_nil] at hlog
      have hnew := hrest [] op post x htail.symm hcaller
      rwa [List.append_nil, hlog] at hnew
    | cons op' tail =>
      obtain ⟨rfl, -⟩ := List.cons.inj htail
      exact h pre op tail x hlog hcaller

/-- In a run that calls for latest claims only, every logged call was one of the latest claim. -/
theorem latestCalls_of_reaches {clock : Timestamp} {s : State}
    (h : ReachesUnder step CallsForLatestClaim (State.init clock) s) (id : JobId) :
    LatestCalls (jobLog s.log id) := by
  induction h with
  | refl =>
    intro pre op post x hsplit
    simp [jobLog, State.init] at hsplit
  | @tail s' s'' hrun hlast ih =>
    obtain ⟨a, -, hs⟩ := hlast
    have hreach : Reachable s' := ⟨clock, ReachesUnder.reaches hrun⟩
    rcases step_cases hs with ⟨elapsed, -, rfl⟩ | ⟨request, task, -, hr, rfl⟩ |
      ⟨u, U, effect, hU, he, rfl⟩ | ⟨u, U, -, hU, -, rfl⟩ | ⟨u, U, -, -, rfl⟩
    · exact ih
    · exact ih
    · exact ih
    · change LatestCalls (jobLog (s'.log ++ U.changes.map Change.event) id)
      rw [jobLog_append]
      refine ih.append fun pre op post x hsplit hcaller => ?_
      have hop : op ∈ jobLog (U.changes.map Change.event) id := by simp [hsplit]
      obtain ⟨hmem, hjob⟩ := List.mem_filter.mp hop
      obtain ⟨c, hc, rfl⟩ := List.mem_map.mp hmem
      obtain ⟨op', htask, hevents⟩ := (hreach.writes hU).of_caller (List.mem_map.mpr ⟨c, hc, rfl⟩) hcaller
      -- The transaction has written this one operation, so nothing stands before it.
      have hpre : pre = [] := by
        have hlength := congrArg List.length hsplit
        have hle := List.length_filter_le (fun e : LogEntry => e.event.jobId = id) (U.changes.map Change.event)
        have hone : U.changes.length = 1 := by simpa [Txn.events] using congrArg List.length hevents
        rw [List.length_map, hone] at hle
        simp only [jobLog, List.length_append, List.length_cons] at hlength
        exact List.eq_nil_of_length_eq_zero (by omega)
      have hid : x.job.id = id := by
        rw [JobEvent.jobId_of_caller hcaller]
        simpa using hjob
      rw [hpre, List.append_nil, ← hid]
      exact latestClaim_of_call hrun u U hU x op' _ htask (by simp)
    · exact ih

/-- In every run in which executions call for the latest claims of their workers, the calls are fenced. -/
theorem leaseFencing_of_callsForLatestClaim {clock : Timestamp} {s : State}
    (h : ReachesUnder step CallsForLatestClaim (State.init clock) s) : LeaseFencing s :=
  (leaseFencing_iff ⟨clock, ReachesUnder.reaches h⟩).mpr (latestCalls_of_reaches h)

/-- `CallsForLatestClaim`, computed, of a run that begins no call. -/
def claimsWithoutPendingCalls (s : State) : Action → Bool
  | .begin (.call _ _) => false
  | .commit t => (s.txns t).all fun T => (T.task.started t).all fun y => (List.range s.nextTxn).all fun u =>
      ((s.txns u).bind Txn.pendingCall).all fun x => x.worker ≠ y.worker || x.job.id ≠ y.job.id
  | _ => true

/-- The executable test of the condition is right. -/
theorem callsForLatestClaim_of_check {s : State} {a : Action} (h : claimsWithoutPendingCalls s a = true) :
    CallsForLatestClaim s a := by
  unfold CallsForLatestClaim
  split
  · simp [claimsWithoutPendingCalls] at h
  · rename_i t
    intro T hT y hy u hu x hx hworker
    simp only [claimsWithoutPendingCalls, Option.all_eq_true, List.all_eq_true, List.mem_range] at h
    simpa [hworker] using h T hT y hy u hu x hx
  · trivial

/-- A worker recovers a lease it has lost and claims the job again. -/
def regainedRun : List Action :=
  claimedRun ++ .tick 61000000 :: transaction 2 (.claimLoop ⟨"w", ["mail"], 1, 60, 10⟩) 11

/-- In that run the execution of the second claim completes the job. -/
theorem leaseFencing_of_callsForLatestClaim_regainedRun :
    ∃ s, ReachesUnder step CallsForLatestClaim (State.init 0) s ∧ LeaseFencing s ∧
      (jobLog s.log 0).map (fun op => op.event.caller.map Execution.claim) = [none, none, none, none, some 2] := by
  have hrun : ((runChecked step claimsWithoutPendingCalls (State.init 0) regainedRun).bind fun s =>
      (step s (.begin (.call 1 (.complete ⟨5, none, none⟩)))).bind fun s =>
        (runChecked step claimsWithoutPendingCalls s [.advance 3, .advance 3, .commit 3]).map fun s =>
          (jobLog s.log 0).map fun op => op.event.caller.map Execution.claim) =
      some [none, none, none, none, some 2] := by
    decide +kernel
  have hcaller : (runChecked step claimsWithoutPendingCalls (State.init 0) regainedRun).map (fun s =>
      s.executions[1]?.map fun x => (x.worker, x.job.id)) = some (some ("w", 0)) := by
    decide +kernel
  have hlatest : ((runChecked step claimsWithoutPendingCalls (State.init 0) regainedRun).bind fun s =>
      latestClaim "w" (jobLog s.log 0)) =
      (runChecked step claimsWithoutPendingCalls (State.init 0) regainedRun).bind fun s => s.executions[1]? := rfl
  obtain ⟨regained, hregained, hrest⟩ := Option.bind_eq_some_iff.mp hrun
  obtain ⟨calling, hcalling, hrest⟩ := Option.bind_eq_some_iff.mp hrest
  obtain ⟨s, hs, hlog⟩ := Option.map_eq_some_iff.mp hrest
  simp only [hregained, Option.map_some, Option.bind_some, Option.some.injEq] at hcaller hlatest
  have hbegin : CallsForLatestClaim regained (.begin (.call 1 (.complete ⟨5, none, none⟩))) := by
    intro x hx
    obtain ⟨hworker, hid⟩ : x.worker = "w" ∧ x.job.id = 0 := by simpa [Option.mem_def.mp hx] using hcaller
    rw [hworker, hid, hlatest, Option.mem_def.mp hx]
  have hreach : ReachesUnder step CallsForLatestClaim (State.init 0) s :=
    ((reachesUnder_of_runChecked (fun _ _ => callsForLatestClaim_of_check) hregained).tail
      ⟨_, hbegin, hcalling⟩).trans (reachesUnder_of_runChecked (fun _ _ => callsForLatestClaim_of_check) hs)
  exact ⟨s, hreach, leaseFencing_of_callsForLatestClaim hreach, hlog⟩

/-- A worker recovers a lease it has lost, claims the job again, and then the execution of the first
claim completes the job. -/
def staleRun : List Action :=
  claimedRun ++ .tick 61000000 :: transaction 2 (.claimLoop ⟨"w", ["mail"], 1, 60, 10⟩) 11 ++
    transaction 3 (.call 0 (.complete ⟨5, none, none⟩)) 2

/-- A worker loses its lease and claims the job again, and then its first execution completes the job. -/
theorem not_leaseFencing_staleRun : ¬ ∀ s, Reachable s → LeaseFencing s := by
  intro hall
  have hfenced := (hall _ (reachable_stateAfter 0 staleRun)).1 0
  have hcheck : ((jobLog (stateAfter 0 staleRun).log 0)[4]?.bind (fun op => op.event.caller)).map
      Execution.claim = some 1 ∧
      (currentLease ((jobLog (stateAfter 0 staleRun).log 0).take 4)).map Execution.claim = some 2 := by
    decide +kernel
  generalize jobLog (stateAfter 0 staleRun).log 0 = log at hcheck hfenced
  obtain ⟨x, hx, hclaim⟩ := Option.map_eq_some_iff.mp hcheck.1
  obtain ⟨op, hop, hcaller⟩ := Option.bind_eq_some_iff.mp hx
  obtain ⟨hlt, rfl⟩ := List.getElem?_eq_some_iff.mp hop
  have hsplit : log = log.take 4 ++ log[4] :: log.drop 5 := by
    rw [← List.drop_eq_getElem_cons hlt, List.take_append_drop]
  have hlease := hcheck.2
  rw [hfenced _ _ _ x hsplit hcaller, Option.map_some, hclaim] at hlease
  simp at hlease

end PgRelay
