import PgRelay.LeaseFencing

/-!
# One lease at a time

Row locks keep the claims in flight apart, and the states of a job keep the committed claims apart:
from one claim of a job to the next there is exactly one operation that ends the first lease, by the
worker that holds it or by a recovery after its end. Until then only this worker's heartbeats touch
the lease.
-/

namespace PgRelay

open RowStore

/-- The jobs a claim in flight has picked or returned. -/
def Task.claiming : Task → List JobId
  | .claimLoop _ (.claiming _ _ _ picked) => picked
  | .claimLoop _ (.finished rows) => rows.map JobRow.id
  | _ => []

/-- A claim in flight holds the locks of its jobs. -/
theorem Reachable.jobLock_of_claiming {s : State} (h : Reachable s) {t : TxnId} {T : Txn}
    (hT : s.txns t = some T) {id : JobId} (hid : id ∈ T.task.claiming) : s.jobLocks id = some t := by
  have htxn := h.inv.txn t T hT
  have htask := htxn.task
  unfold TaskOk at htask
  unfold Task.claiming at hid
  split at hid
  · rename_i hpc
    simp only [hpc] at htask
    exact (htask id hid).1
  · rename_i hpc
    simp only [hpc] at htask
    obtain ⟨row, hrow, rfl⟩ := List.mem_map.mp hid
    obtain ⟨c, hc, hevent⟩ := htask row hrow
    have hlock := htxn.locked c hc
    rwa [hevent] at hlock
  · cases hid

/-! ## From one claim to the next -/

/-- A heartbeat of the worker that holds the lease, or a change that does not concern it. -/
def KeepsLease (x : Execution) (op : LogEntry) : Prop :=
  match op.event with
  | .extended y _ => y.worker = x.worker
  | .unlinked _ => True
  | _ => False

/-- The end of a lease that leaves the job pending: a failure to be retried or a return by the
worker that holds it, or a recovery after its deadline. -/
def EndsLease (x : Execution) (deadline : Option Timestamp) (op : LogEntry) : Prop :=
  match op.event with
  | .failed y args => y.worker = x.worker ∧ shouldRetry y.job args = true
  | .returned y => y.worker = x.worker
  | .recovered _ => ∃ d, deadline = some d ∧ d < op.now
  | _ => False

/-- A change that neither gives nor ends a lease nor touches one. -/
def LeavesIdle (op : LogEntry) : Prop := ∃ id, op.event = .unlinked id

/-- Where a job stands after the claim `c` of an execution and further operations without a claim. -/
inductive AfterClaim (x : Execution) (pre : List LogEntry) (c : LogEntry) :
    List LogEntry → Option JobEntry → Prop
  | held {ops entry} (hops : ∀ op ∈ ops, KeepsLease x op) (hstatus : entry.row.status = .leased)
      (hlease : currentLease (pre ++ c :: ops) = some x) : AfterClaim x pre c ops (some entry)
  | idle {held last idle entry} (hheld : ∀ op ∈ held, KeepsLease x op)
      (hlast : EndsLease x (leaseDeadline (pre ++ c :: held)) last) (hidle : ∀ op ∈ idle, LeavesIdle op)
      (hstatus : entry.row.status = .pending) : AfterClaim x pre c (held ++ last :: idle) (some entry)
  | finished {ops row} (hrow : ∀ entry, row = some entry → entry.row.status.isFinal = true) :
      AfterClaim x pre c ops row

variable {id : JobId} {x : Execution} {pre : List LogEntry} {c : LogEntry} {ops : List LogEntry} {op : LogEntry}

/-- An operation on a leased job is a heartbeat or the end of the lease. -/
theorem AfterClaim.step_held {before : JobEntry} {after : Option JobEntry}
    (hhistory : JobHistory id (pre ++ c :: ops) (some before)) (hops : ∀ op ∈ ops, KeepsLease x op)
    (hleased : before.row.status = .leased) (hlease : currentLease (pre ++ c :: ops) = some x)
    (hacts : JobActs op (some before) after) (hclaim : op.event.isClaim = false) :
    AfterClaim x pre c (ops ++ [op]) after := by
  have hshown := hhistory.leaseShown
  have hholder := hshown.holder x hlease
  have howner {worker : WorkerId} (howned : OwnedBy worker before.row) : worker = x.worker :=
    Option.some.inj (howned.1.symm.trans hholder)
  have hkeeps (hop : KeepsLease x op) : ∀ op' ∈ ops ++ [op], KeepsLease x op' := by
    intro op' hop'
    rcases List.mem_append.mp hop' with hold | hnew
    · exact hops op' hold
    · rw [List.mem_singleton.mp hnew]
      exact hop
  have hkept (hsame : op.event.leaseAfter (some x) = some x) :
      currentLease (pre ++ c :: (ops ++ [op])) = some x := by
    rw [← List.cons_append, ← List.append_assoc, currentLease_snoc, hlease, hsame]
  cases hacts with
  | claimed => cases hclaim
  | extended howned => exact .held (hkeeps (howner howned)) hleased (hkept rfl)
  | returned howned => exact .idle hops (howner howned) (by simp) rfl
  | completed howned => exact .finished fun entry hentry => by rw [← Option.some.inj hentry]; rfl
  | @failed t now y args _ howned =>
    cases hretry : shouldRetry y.job args with
    | true =>
      refine .idle hops ⟨howner howned, hretry⟩ (by simp) ?_
      simp [failJob, failUpdate, hretry]
    | false =>
      refine .finished fun entry hentry => ?_
      rw [← Option.some.inj hentry]
      simp [failJob, failUpdate, hretry, JobStatus.isFinal]
  | @recovered t now id' _ hexpired =>
    by_cases hmax : before.row.maxAttempts ≤ before.row.attemptCount
    · refine .finished fun entry hentry => ?_
      rw [← Option.some.inj hentry]
      simp [recoverExpiredLease, recoverUpdate, hmax, JobStatus.isFinal]
    · refine .idle hops ?_ (by simp) (by simp [recoverExpiredLease, recoverUpdate, hmax])
      obtain ⟨d, hd, hlt⟩ := (Option.any_eq_true _ _).mp hexpired.2
      exact ⟨d, (hshown.deadline hleased).symm.trans hd, of_decide_eq_true hlt⟩
  | cancelled hpending => exact absurd (hleased.symm.trans hpending) (by decide)
  | unlinked => exact .held (hkeeps trivial) hleased (hkept rfl)
  | deleted hpurge =>
    have hfinal := hpurge.isFinal
    rw [hleased] at hfinal
    cases hfinal

/-- An operation on a pending job other than a claim ends the job or leaves it idle. -/
theorem AfterClaim.step_idle {held idle : List LogEntry} {last : LogEntry} {before : JobEntry}
    {after : Option JobEntry} (hheld : ∀ op ∈ held, KeepsLease x op)
    (hlast : EndsLease x (leaseDeadline (pre ++ c :: held)) last) (hidle : ∀ op ∈ idle, LeavesIdle op)
    (hpending : before.row.status = .pending) (hacts : JobActs op (some before) after)
    (hclaim : op.event.isClaim = false) :
    AfterClaim x pre c (held ++ last :: idle ++ [op]) after := by
  have hunowned {worker : WorkerId} (howned : OwnedBy worker before.row) : False := by
    have hleased := howned.2
    rw [hpending] at hleased
    cases hleased
  cases hacts with
  | claimed => cases hclaim
  | extended howned | returned howned | completed howned | failed howned => exact (hunowned howned).elim
  | recovered hexpired => exact absurd (hpending.symm.trans hexpired.1) (by decide)
  | cancelled => exact .finished fun entry hentry => by rw [← Option.some.inj hentry]; rfl
  | unlinked =>
    rw [List.append_assoc, List.cons_append]
    refine .idle hheld hlast (fun op' hop' => ?_) hpending
    rcases List.mem_append.mp hop' with hold | hnew
    · exact hidle op' hold
    · rw [List.mem_singleton.mp hnew]
      exact ⟨_, rfl⟩
  | deleted hpurge =>
    have hfinal := hpurge.isFinal
    rw [hpending] at hfinal
    cases hfinal

/-- Nothing but its deletion follows the end of a job. -/
theorem JobActs.isFinal {before after : Option JobEntry} (hacts : JobActs op before after)
    (hfinal : ∀ entry, before = some entry → entry.row.status.isFinal = true) (hrow : before ≠ none) :
    ∀ entry, after = some entry → entry.row.status.isFinal = true := by
  obtain ⟨entry, rfl⟩ := Option.ne_none_iff_exists'.mp hrow
  rintro entry' rfl
  rw [(hacts.settled (hfinal entry rfl)).status_eq]
  exact hfinal entry rfl

/-- Where a job stands after a claim and further operations without a claim. -/
theorem afterClaim_of_history {leaseSeconds : Int} (hc : c.event = .claimed x leaseSeconds)
    {row : Option JobEntry} (h : JobHistory id (pre ++ c :: ops) row)
    (hclaim : ∀ op ∈ ops, op.event.isClaim = false) : AfterClaim x pre c ops row := by
  induction ops using List.reverseRecOn generalizing row with
  | nil =>
    obtain ⟨before, -, hacts, -⟩ := h.of_snoc
    obtain ⟨t, now, event⟩ := c
    obtain rfl : event = _ := hc
    cases hacts with
    | claimed hclaimable hx =>
      refine .held (by simp) ?_ (by simp [JobEvent.leaseAfter])
      rw [hx]
      rfl
  | append_singleton ops op ih =>
    rw [← List.cons_append, ← List.append_assoc] at h
    obtain ⟨before, hbefore, hacts, hop⟩ := h.of_snoc
    have hnoclaim := hclaim op (by simp)
    cases ih hbefore fun op' hop' => hclaim op' (List.mem_append_left _ hop') with
    | held hops hstatus hlease => exact .step_held hbefore hops hstatus hlease hacts hnoclaim
    | idle hheld hlast hidle hstatus => exact .step_idle hheld hlast hidle hstatus hacts hnoclaim
    | finished hrow =>
      refine .finished (hacts.isFinal hrow ?_)
      rintro rfl
      -- A deleted job does not come back: its id has been used.
      cases row with
      | none => cases hacts
      | some entry =>
        have hnil := hbefore.eq_nil_of_inserted hacts hop (h.jobId_of_mem (by simp))
        simp at hnil

/-- A claim takes a pending job. -/
theorem JobActs.pending_of_isClaim {before after : Option JobEntry} (hacts : JobActs op before after)
    (hop : op.event.isClaim = true) : ∃ entry, before = some entry ∧ entry.row.status = .pending := by
  cases hacts with
  | claimed hclaimable => exact ⟨_, rfl, hclaimable.1⟩
  | _ => cases hop

/-- Only the claim itself and the heartbeats after it determine the end of a lease. -/
theorem leaseDeadline_of_claim {leaseSeconds : Int} (hc : c.event = .claimed x leaseSeconds)
    (held : List LogEntry) : leaseDeadline (pre ++ c :: held) = leaseDeadline (c :: held) := by
  simp [leaseDeadline, LogEntry.deadlineAfter, hc]

/-- Claims in flight have picked disjoint jobs, and between two successive committed claims of a job
exactly one operation ends the first lease, after heartbeats of its worker alone. -/
theorem lease_exclusivity {s : State} (h : Reachable s) :
    (∀ t t' T T', t ≠ t' → s.txns t = some T → s.txns t' = some T' → T.task.claiming.Disjoint T'.task.claiming) ∧
    ∀ id pre c₁ between c₂ post x leaseSeconds, jobLog s.log id = pre ++ c₁ :: (between ++ c₂ :: post) →
      c₁.event = .claimed x leaseSeconds → c₂.event.isClaim = true →
      (∀ op ∈ between, op.event.isClaim = false) →
      ∃ held last idle, between = held ++ last :: idle ∧ (∀ op ∈ held, KeepsLease x op) ∧
        EndsLease x (leaseDeadline (c₁ :: held)) last ∧ ∀ op ∈ idle, LeavesIdle op := by
  refine ⟨fun t t' T T' hne hT hT' id hid hid' => ?_, ?_⟩
  · have hlock := (h.jobLock_of_claiming hT hid).symm.trans (h.jobLock_of_claiming hT' hid')
    exact hne (Option.some.inj hlock)
  · intro id pre c₁ between c₂ post x leaseSeconds hlog hc₁ hc₂ hclaim
    have hhistory := h.jobHistory id
    rw [hlog, ← List.cons_append, ← List.append_assoc] at hhistory
    obtain ⟨before, after, hbefore, hacts, -⟩ := hhistory.split
    obtain ⟨entry, rfl, hpending⟩ := hacts.pending_of_isClaim hc₂
    cases afterClaim_of_history hc₁ hbefore hclaim with
    | held hops hstatus =>
      rw [hpending] at hstatus
      cases hstatus
    | @idle held last idle _ hheld hlast hidle hstatus =>
      rw [leaseDeadline_of_claim hc₁] at hlast
      exact ⟨held, last, idle, rfl, hheld, hlast, hidle⟩
    | finished hrow =>
      have hfinal := hrow entry rfl
      rw [hpending] at hfinal
      cases hfinal

/-- A lease is extended, expires and is recovered, and another worker claims the job. -/
def reclaimedRun : List Action :=
  claimedRun ++ .tick 30000000 :: transaction 2 (.call 0 (.extendLease 60)) 2 ++
    .tick 61000000 :: transaction 3 (.claimLoop ⟨"v", ["mail"], 1, 60, 10⟩) 11

/-- The first lease of that job, which its heartbeat keeps and the recovery ends. -/
theorem lease_exclusivity_reclaimedRun : ∃ x c held last idle,
    (jobLog (stateAfter 0 reclaimedRun).log 0)[1]? = some c ∧
      ((jobLog (stateAfter 0 reclaimedRun).log 0).drop 2).take 2 = held ++ last :: idle ∧
      (∀ op ∈ held, KeepsLease x op) ∧ EndsLease x (leaseDeadline (c :: held)) last ∧
      ∀ op ∈ idle, LeavesIdle op := by
  have hexclusive := (lease_exclusivity (reachable_stateAfter 0 reclaimedRun)).2 0
  have hflags : ((jobLog (stateAfter 0 reclaimedRun).log 0).map fun op => op.event.isClaim) =
      [false, true, false, false, true] := by
    decide +kernel
  generalize jobLog (stateAfter 0 reclaimedRun).log 0 = log at hexclusive hflags ⊢
  obtain ⟨op₀, log, rfl, -, hflags⟩ := List.map_eq_cons_iff.mp hflags
  obtain ⟨op₁, log, rfl, hclaim₁, hflags⟩ := List.map_eq_cons_iff.mp hflags
  obtain ⟨op₂, log, rfl, hclaim₂, hflags⟩ := List.map_eq_cons_iff.mp hflags
  obtain ⟨op₃, log, rfl, hclaim₃, hflags⟩ := List.map_eq_cons_iff.mp hflags
  obtain ⟨op₄, log, rfl, hclaim₄, hflags⟩ := List.map_eq_cons_iff.mp hflags
  obtain ⟨x, leaseSeconds, hx⟩ : ∃ x leaseSeconds, op₁.event = .claimed x leaseSeconds := by
    cases hevent : op₁.event <;> simp [hevent, JobEvent.isClaim] at hclaim₁ ⊢
  obtain ⟨held, last, idle, hsplit, hheld, hlast, hidle⟩ :=
    hexclusive [op₀] op₁ [op₂, op₃] op₄ log x leaseSeconds rfl hx hclaim₄ (by simp [hclaim₂, hclaim₃])
  exact ⟨x, op₁, held, last, idle, rfl, hsplit, hheld, hlast, hidle⟩

end PgRelay
