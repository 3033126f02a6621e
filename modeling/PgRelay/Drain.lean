import PgRelay.JobRows

/-!
# Draining a queue

`drain_async` polls a queue until it has no pending and no leased jobs. One round counts the pending
jobs with one statement and the leased ones with a later one, each in a snapshot of its own. A job that
goes back from leased to pending between them is in neither count. Unless that happens, a drained queue
was idle at some moment of the last round.
-/

namespace PgRelay

open RowStore

variable {s s' : State} {q : QueueName}

/-! ## Listing jobs -/

/-- The filters and the page of `list_jobs`. -/
structure ListArgs where
  status : Option JobStatus
  queueName : Option QueueName
  kind : Option JobKind
  name : Option String
  dedupeKey : Option String
  limit : ℕ
  offset : ℕ
  includeTotal : Bool

/-- `_filtered_select`. -/
def filteredSelect (args : ListArgs) (j : JobRow) : Bool :=
  args.status.all (fun status => j.status = status) && args.queueName.all (fun q => j.queueName = q) &&
    args.kind.all (fun kind => j.kind = kind) && args.name.all (fun name => j.name = name) &&
    args.dedupeKey.all fun key => j.dedupeKey = some key

/-- `JobListResult`. -/
structure JobListResult where
  items : List JobRow
  total : Option ℕ

/-- Where `list_jobs` stands: the page and the total are read by two statements. -/
inductive ListPc
  | begin
  | selected (items : List JobRow)
  | finished (result : JobListResult)

/-- The first statement, `ORDER BY created_at DESC` with the limit and the offset. -/
def listedJobs (args : ListArgs) (jobs : JobTable) : List JobRow :=
  ((((jobs.rows.map JobEntry.row).filter (filteredSelect args)).insertionSort
    fun a b => b.createdAt ≤ a.createdAt).drop args.offset).take args.limit

/-- The second statement, `SELECT count(*)` from the same select. -/
def totalJobs (args : ListArgs) (jobs : JobTable) : ℕ := jobs.count fun entry => filteredSelect args entry.row

/-- One statement of `list_jobs`, in the snapshot that it takes. -/
def listStatement (args : ListArgs) (jobs : JobTable) : ListPc → Option ListPc
  | .begin => some (if args.includeTotal then .selected (listedJobs args jobs)
      else .finished ⟨listedJobs args jobs, none⟩)
  | .selected items => some (.finished ⟨items, some (totalJobs args jobs)⟩)
  | .finished _ => none

/-! ## The loop -/

/-- The arguments with which `drain_async` lists the jobs of a status. -/
def drainList (q : QueueName) (status : JobStatus) : ListArgs where
  status := some status
  queueName := some q
  kind := none
  name := none
  dedupeKey := none
  limit := 1
  offset := 0
  includeTotal := true

/-- Where `drain_async` stands. -/
inductive DrainPc
  | listPending (pc : ListPc)
  | listLeased (pending : JobListResult) (pc : ListPc)
  | listed (pending leased : JobListResult)
  | sleeping
  | returned (code : ℕ)
  | raised

/-- A run of `drain_async`, with the time of its event loop. -/
structure Drain where
  pc : DrainPc
  deadline : Int
  time : Int

/-- `drain_async` begins its first round. -/
def Drain.init (time timeoutSeconds : Int) : Drain := ⟨.listPending .begin, time + timeoutSeconds, time⟩

/-- The round goes on with the result of the first list. -/
def ListPc.afterPending : ListPc → DrainPc
  | .finished pending => .listLeased pending .begin
  | pc => .listPending pc

/-- The round goes on with the results of both lists. -/
def ListPc.afterLeased (pending : JobListResult) : ListPc → DrainPc
  | .finished leased => .listed pending leased
  | pc => .listLeased pending pc

/-- The end of a round. -/
def Drain.decide (d : Drain) (pending leased : JobListResult) : DrainPc :=
  if pending.total.getD 0 + leased.total.getD 0 = 0 then .returned 0
  else if d.time ≥ d.deadline then .returned 1
  else .sleeping

/-- The others act, the event loop's time passes, or `drain_async` goes on: with a statement, which
may also raise an error, with its decision, or after its sleep. -/
inductive DrainAction
  | other (a : Action)
  | elapse (n : ℕ)
  | statement
  | fail
  | decide
  | wake

/-- One action of the system in which one process drains a queue. -/
def drainStep (q : QueueName) (sd : State × Drain) : DrainAction → Option (State × Drain)
  | .other a => (step sd.1 a).map fun s' => (s', sd.2)
  | .elapse n => some (sd.1, { sd.2 with time := sd.2.time + n })
  | .statement =>
    match sd.2.pc with
    | .listPending pc => (listStatement (drainList q .pending) sd.1.jobs pc).map fun pc' =>
        (sd.1, { sd.2 with pc := pc'.afterPending })
    | .listLeased pending pc => (listStatement (drainList q .leased) sd.1.jobs pc).map fun pc' =>
        (sd.1, { sd.2 with pc := pc'.afterLeased pending })
    | _ => none
  | .fail =>
    match sd.2.pc with
    | .listPending _ | .listLeased _ _ => some (sd.1, { sd.2 with pc := .raised })
    | _ => none
  | .decide =>
    match sd.2.pc with
    | .listed pending leased => some (sd.1, { sd.2 with pc := sd.2.decide pending leased })
    | _ => none
  | .wake =>
    match sd.2.pc with
    | .sleeping => some (sd.1, { sd.2 with pc := .listPending .begin })
    | _ => none

/-- The job tables of the moments of the last round, from its begin to its end. -/
abbrev Round := List JobTable

/-- An observer notes them down. -/
def noteRound (round : Round) (sd : State × Drain) (_ : DrainAction) (sd' : State × Drain) : Round :=
  match sd.2.pc with
  | .returned _ | .raised => round
  | .sleeping => [sd'.1.jobs]
  | _ => round ++ [sd'.1.jobs]

/-- No job of the queue has the status. -/
def noneOf (q : QueueName) (status : JobStatus) (jobs : JobTable) : Bool :=
  jobs.rows.all fun entry => !(entry.row.queueName = q && entry.row.status = status)

/-- The queue has no pending and no leased job. -/
def Idle (q : QueueName) (jobs : JobTable) : Prop :=
  ∀ id entry, jobs.get id = some entry → entry.row.queueName = q →
    entry.row.status ≠ .pending ∧ entry.row.status ≠ .leased

/-- After no pending job has been counted and before the leased ones are, no commit makes a job of the
queue pending while another one, or the same, is leased. -/
def noneReturns (q : QueueName) (sd : State × Drain) : DrainAction → Bool
  | .other (.commit t) =>
    match sd.2.pc with
    | .listLeased pending _ => pending.total ≠ some 0 || noneOf q .leased sd.1.jobs ||
        (sd.1.txns t).all fun T => noneOf q .pending (T.view sd.1)
    | _ => true
  | _ => true

/-! ## The counts -/

/-- A total of zero is what a list of no such job has. -/
theorem noneOf_of_totalJobs {status : JobStatus} {jobs : JobTable} (h : totalJobs (drainList q status) jobs = 0) :
    noneOf q status jobs = true := by
  simp only [totalJobs, Table.count, List.length_eq_zero_iff, List.filter_eq_nil_iff] at h
  simp only [noneOf, List.all_eq_true]
  intro entry hentry
  have hnot := h entry hentry
  simp only [filteredSelect, drainList, Option.all_some, Option.all_none, Bool.and_true, Bool.and_eq_true,
    decide_eq_true_eq] at hnot
  simp only [Bool.not_eq_true', Bool.and_eq_false_iff, decide_eq_false_iff_not]
  tauto

/-- A queue without pending and leased jobs is idle. -/
theorem idle_of_noneOf {jobs : JobTable} (hpending : noneOf q .pending jobs = true)
    (hleased : noneOf q .leased jobs = true) : Idle q jobs := by
  simp only [noneOf, List.all_eq_true, Bool.not_eq_true', Bool.and_eq_false_iff, decide_eq_false_iff_not]
    at hpending hleased
  intro id entry hget hqueue
  obtain ⟨hmem, -⟩ := (Table.get_eq_some_iff _ _ _).mp hget
  exact ⟨(hpending entry hmem).resolve_left (not_not_intro hqueue),
    (hleased entry hmem).resolve_left (not_not_intro hqueue)⟩

/-- An idle queue has neither pending nor leased jobs. -/
theorem noneOf_of_idle {status : JobStatus} (hstatus : status = .pending ∨ status = .leased) {jobs : JobTable}
    (h : Idle q jobs) : noneOf q status jobs = true := by
  simp only [noneOf, List.all_eq_true, Bool.not_eq_true', Bool.and_eq_false_iff, decide_eq_false_iff_not]
  intro entry hentry
  by_cases hqueue : entry.row.queueName = q
  · obtain ⟨hpending, hleased⟩ := h entry.id entry (Table.get_of_mem hentry) hqueue
    rcases hstatus with rfl | rfl
    · exact .inr hpending
    · exact .inr hleased
  · exact .inl hqueue

/-- What holds at each point of a round, for the table it is in and the moments it has seen. -/
def DrainPc.Sound (q : QueueName) (jobs : JobTable) (round : Round) : DrainPc → Prop
  | .listPending _ => jobs ∈ round
  | .listLeased pending _ => jobs ∈ round ∧ ∃ n, pending.total = some n ∧
      (n = 0 → noneOf q .pending jobs = true ∨ ∃ moment ∈ round, Idle q moment)
  | .listed pending leased => ∃ n m, pending.total = some n ∧ leased.total = some m ∧
      (n = 0 → m = 0 → ∃ moment ∈ round, Idle q moment)
  | .returned code => code = 0 → ∃ moment ∈ round, Idle q moment
  | .sleeping | .raised => True

/-- More moments do not harm. -/
theorem exists_idle_append {round : Round} (moments : Round) (h : ∃ moment ∈ round, Idle q moment) :
    ∃ moment ∈ round ++ moments, Idle q moment := by
  obtain ⟨moment, hmem, hidle⟩ := h
  exact ⟨moment, List.mem_append_left _ hmem, hidle⟩

/-- An action that leaves the table and `drain_async` where they are keeps a round sound. -/
theorem DrainPc.Sound.same {round : Round} {d : Drain} (h : d.pc.Sound q s.jobs round) (act : DrainAction)
    (sd' : State × Drain) : d.pc.Sound q s.jobs (noteRound round (s, d) act sd') := by
  obtain ⟨pc, deadline, time⟩ := d
  cases pc with
  | listPending => exact List.mem_append_left _ h
  | listLeased pending pc =>
    obtain ⟨hmem, n, htotal, hsound⟩ := h
    exact ⟨List.mem_append_left _ hmem, n, htotal, fun hn => (hsound hn).imp_right (exists_idle_append _)⟩
  | listed pending leased =>
    obtain ⟨n, m, hpending, hleased, hsound⟩ := h
    exact ⟨n, m, hpending, hleased, fun hn hm => exists_idle_append _ (hsound hn hm)⟩
  | sleeping => trivial
  | returned => exact h
  | raised => trivial

/-- A commit keeps a round sound, if it makes no job of the queue pending between the counts. -/
theorem DrainPc.Sound.commit {round : Round} {d : Drain} {t : TxnId} {T : Txn} (h : d.pc.Sound q s.jobs round)
    (hT : s.txns t = some T) (hok : noneReturns q (s, d) (.other (.commit t)) = true) :
    d.pc.Sound q (s.commit t T).jobs (noteRound round (s, d) (.other (.commit t)) (s.commit t T, d)) := by
  have hlast : (s.commit t T).jobs ∈ round ++ [(s.commit t T).jobs] :=
    List.mem_append_right _ (List.mem_singleton_self _)
  obtain ⟨pc, deadline, time⟩ := d
  cases pc with
  | listPending => exact hlast
  | listLeased pending pc =>
    obtain ⟨hmem, n, htotal, hsound⟩ := h
    refine ⟨hlast, n, htotal, fun hn => ?_⟩
    rcases hsound hn with hnone | hidle
    · simp only [noneReturns, htotal, hn, ne_eq, not_true_eq_false, decide_false, Bool.false_or, hT, Option.all_some,
        Bool.or_eq_true] at hok
      rcases hok with hleased | hpending
      · exact .inr ⟨s.jobs, List.mem_append_left _ hmem, idle_of_noneOf hnone hleased⟩
      · exact .inl hpending
    · exact .inr (exists_idle_append _ hidle)
  | listed pending leased =>
    obtain ⟨n, m, hpending, hleased, hsound⟩ := h
    exact ⟨n, m, hpending, hleased, fun hn hm => exists_idle_append _ (hsound hn hm)⟩
  | sleeping => trivial
  | returned => exact h
  | raised => trivial

/-- The statements of `drain_async` keep a round sound. -/
theorem DrainPc.Sound.statement {round : Round} {d d' : Drain} (h : d.pc.Sound q s.jobs round)
    (hs : drainStep q (s, d) .statement = some (s', d')) :
    s' = s ∧ d'.pc.Sound q s.jobs (noteRound round (s, d) .statement (s', d')) := by
  obtain ⟨pc, deadline, time⟩ := d
  cases pc with
  | listPending pc =>
    obtain ⟨pc', hpc, heq⟩ := Option.map_eq_some_iff.mp hs
    obtain ⟨rfl, rfl⟩ := Prod.mk.inj heq
    have hlast : s.jobs ∈ round ++ [s.jobs] := List.mem_append_right _ (List.mem_singleton_self _)
    refine ⟨rfl, ?_⟩
    cases pc with
    | begin =>
      obtain rfl := Option.some.inj hpc
      exact hlast
    | selected items =>
      obtain rfl := Option.some.inj hpc
      exact ⟨hlast, _, rfl, fun hn => .inl (noneOf_of_totalJobs hn)⟩
    | finished => cases hpc
  | listLeased pending pc =>
    obtain ⟨pc', hpc, heq⟩ := Option.map_eq_some_iff.mp hs
    obtain ⟨rfl, rfl⟩ := Prod.mk.inj heq
    obtain ⟨hmem, n, htotal, hsound⟩ := h
    have hlast : s.jobs ∈ round ++ [s.jobs] := List.mem_append_right _ (List.mem_singleton_self _)
    refine ⟨rfl, ?_⟩
    cases pc with
    | begin =>
      obtain rfl := Option.some.inj hpc
      exact ⟨hlast, n, htotal, fun hn => (hsound hn).imp_right (exists_idle_append _)⟩
    | selected items =>
      obtain rfl := Option.some.inj hpc
      refine ⟨n, _, htotal, rfl, fun hn hm => ?_⟩
      rcases hsound hn with hnone | hidle
      · exact ⟨s.jobs, hlast, idle_of_noneOf hnone (noneOf_of_totalJobs hm)⟩
      · exact exists_idle_append _ hidle
    | finished => cases hpc
  | _ => cases hs

/-- Every admitted action keeps a round sound. -/
theorem DrainPc.Sound.step {round : Round} {d : Drain} {act : DrainAction} {sd' : State × Drain}
    (h : d.pc.Sound q s.jobs round) (hok : noneReturns q (s, d) act = true)
    (hs : drainStep q (s, d) act = some sd') :
    sd'.2.pc.Sound q sd'.1.jobs (noteRound round (s, d) act sd') := by
  obtain ⟨s', d'⟩ := sd'
  cases act with
  | other a =>
    obtain ⟨s₁, hstep, heq⟩ := Option.map_eq_some_iff.mp hs
    obtain ⟨rfl, rfl⟩ := Prod.mk.inj heq
    rcases jobs_of_step hstep with ⟨t, T, rfl, hT, -, rfl⟩ | ⟨-, hjobs, -⟩
    · exact h.commit hT hok
    · rw [hjobs]
      exact h.same _ _
  | elapse n =>
    obtain ⟨rfl, rfl⟩ := Prod.mk.inj (Option.some.inj hs)
    exact h.same _ _
  | statement =>
    obtain ⟨rfl, hsound⟩ := h.statement hs
    exact hsound
  | fail =>
    obtain ⟨pc, deadline, time⟩ := d
    cases pc with
    | listPending | listLeased =>
      obtain ⟨rfl, rfl⟩ := Prod.mk.inj (Option.some.inj hs)
      trivial
    | _ => cases hs
  | decide =>
    obtain ⟨pc, deadline, time⟩ := d
    cases pc with
    | listed pending leased =>
      obtain ⟨rfl, rfl⟩ := Prod.mk.inj (Option.some.inj hs)
      obtain ⟨n, m, hpending, hleased, hsound⟩ := h
      change (Drain.decide _ pending leased).Sound q s.jobs (round ++ [s.jobs])
      unfold Drain.decide
      split_ifs with hzero hdeadline
      · intro _
        simp only [hpending, hleased, Option.getD_some, Nat.add_eq_zero_iff] at hzero
        exact exists_idle_append _ (hsound hzero.1 hzero.2)
      · intro hcode
        cases hcode
      · trivial
    | _ => cases hs
  | wake =>
    obtain ⟨pc, deadline, time⟩ := d
    cases pc with
    | sleeping =>
      obtain ⟨rfl, rfl⟩ := Prod.mk.inj (Option.some.inj hs)
      exact List.mem_singleton_self _
    | _ => cases hs

/-- In every run in which no job of the queue goes back to pending between the two counts of a round,
`drain_async` returns 0 only if the queue was idle at some moment of its last round. -/
theorem drain_sound {s₀ : State} {q : QueueName} {time timeoutSeconds : Int} {s : State} {d : Drain} {round : Round}
    (h : ReachesUnder (observed (drainStep q) noteRound) (fun sdr act => noneReturns q sdr.1 act = true)
      ((s₀, Drain.init time timeoutSeconds), [s₀.jobs]) ((s, d), round)) (hdrained : d.pc = .returned 0) :
    ∃ moment ∈ round, Idle q moment := by
  have hsound : d.pc.Sound q s.jobs round := by
    refine h.observed_invariant (fun sd act => noneReturns q sd act = true)
      (I := fun sd round => sd.2.pc.Sound q sd.1.jobs round) (List.mem_singleton_self _) ?_
    rintro ⟨s, d⟩ round act sd' hsound hok hs
    exact hsound.step hok hs
  rw [hdrained] at hsound
  exact hsound rfl

/-- `drain_async` has returned 0. -/
def DrainPc.isDrained : DrainPc → Bool
  | .returned code => code = 0
  | _ => false

/-- A drain that takes the queue for drained has returned 0. -/
theorem DrainPc.eq_of_isDrained {pc : DrainPc} (h : pc.isDrained = true) : pc = .returned 0 := by
  cases pc with
  | returned code => rw [of_decide_eq_true h]
  | _ => cases h

/-- The leased job succeeds between the two counts of the first round. -/
def drainedRound : List DrainAction :=
  [.statement, .statement] ++ (transaction 2 (.call 0 (.complete ⟨5, none, none⟩)) 2).map DrainAction.other ++
    [.statement, .statement, .decide]

/-- A job is completed in the round, before the drain counts the leased ones. -/
theorem drain_sound_drainedRound : ∃ sdr,
    runChecked (observed (drainStep "mail") noteRound) (fun sdr act => noneReturns "mail" sdr.1 act)
      ((stateAfter 0 claimedRun, Drain.init 0 300), [(stateAfter 0 claimedRun).jobs]) drainedRound = some sdr ∧
      sdr.1.2.pc = .returned 0 ∧ ∃ moment ∈ sdr.2, Idle "mail" moment := by
  have hrun : (runChecked (observed (drainStep "mail") noteRound) (fun sdr act => noneReturns "mail" sdr.1 act)
      ((stateAfter 0 claimedRun, Drain.init 0 300), [(stateAfter 0 claimedRun).jobs]) drainedRound).any
        (fun sdr => sdr.1.2.pc.isDrained) = true := by
    decide +kernel
  obtain ⟨⟨⟨s, d⟩, round⟩, hs, hpc⟩ := Option.any_eq_true _ _ |>.mp hrun
  have hdrained : d.pc = .returned 0 := DrainPc.eq_of_isDrained hpc
  exact ⟨_, hs, hdrained, drain_sound (reachesUnder_of_runChecked (fun _ _ h => h) hs) hdrained⟩

/-- The leased job fails between the two counts of the first round, and is to be retried. -/
def retriedRound : List DrainAction :=
  [.statement, .statement] ++ (transaction 2
    (.call 0 (.fail ⟨true, false, 10, 5, some "RuntimeError", some "boom", none, none⟩)) 2).map DrainAction.other ++
    [.statement, .statement, .decide]

/-- A job is leased when the pending ones are counted, and pending again when the leased ones are. -/
theorem not_drain_sound_retriedRound : ¬ ∀ s₀ q time timeoutSeconds s d round, Reachable s₀ →
    Reaches (observed (drainStep q) noteRound) ((s₀, Drain.init time timeoutSeconds), [s₀.jobs]) ((s, d), round) →
      d.pc = .returned 0 → ∃ moment ∈ round, Idle q moment := by
  intro hall
  have hrun : (run (observed (drainStep "mail") noteRound)
      ((stateAfter 0 claimedRun, Drain.init 0 300), [(stateAfter 0 claimedRun).jobs]) retriedRound).any
        (fun sdr => sdr.1.2.pc.isDrained && sdr.2.all fun jobs => !noneOf "mail" .pending jobs ||
          !noneOf "mail" .leased jobs) = true := by
    decide +kernel
  obtain ⟨⟨⟨s, d⟩, round⟩, hs, hend⟩ := Option.any_eq_true _ _ |>.mp hrun
  rw [Bool.and_eq_true] at hend
  obtain ⟨hpc, hbusy⟩ := hend
  obtain ⟨moment, hmem, hidle⟩ := hall _ "mail" 0 300 s d round (reachable_stateAfter 0 claimedRun)
    (reaches_of_run hs) (DrainPc.eq_of_isDrained hpc)
  have hmoment := List.all_eq_true.mp hbusy moment hmem
  rw [noneOf_of_idle (.inl rfl) hidle, noneOf_of_idle (.inr rfl) hidle] at hmoment
  cases hmoment

end PgRelay
