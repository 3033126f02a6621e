import PgRelay.References
import PgRelay.JobListing
import PgRelay.Selection.Groups
import PgRelay.PyText.Value
import Mathlib.Algebra.Order.Ring.Rat
import Mathlib.Algebra.Order.Field.Basic

/-!
# Statistics

`get_stats` counts the jobs by status, then by queue and status, and finds the age of the oldest pending
job. These are separate statements of one READ COMMITTED session, each with a snapshot of its own, so its
answers may disagree, but by no more than the operations that have been committed in between.

With `approximate` a large table is not counted. The planner is asked for an estimate for each status, and
for each status of each queue; the queues are those of `pgrelay_queue`. These are all queues that have jobs,
because the queue of a job cannot go away, so good estimates give what counting gives.
-/

namespace PgRelay

open RowStore Selection PyText

variable {s s' : State}

/-! ## The queries -/

/-- `JOB_STATUSES`. -/
def jobStatuses : List JobStatus := [.pending, .leased, .succeeded, .deadLetter, .cancelled]

/-- Count by status row. -/
structure StatsCountsRow where
  status : JobStatus
  count : ℕ
  deriving DecidableEq

/-- Queue depth row. -/
structure QueueDepthRow where
  queueName : QueueName
  status : JobStatus
  count : ℕ
  deriving DecidableEq

/-- `ORDER BY status`. -/
abbrev StatusOrder (a b : JobStatus) : Prop := a.text ≤ b.text

/-- `ORDER BY queue_name, status`. -/
abbrev DepthOrder (a b : QueueName × JobStatus) : Prop := a.1 < b.1 ∨ a.1 = b.1 ∧ a.2.text ≤ b.2.text

/-- The statuses of all jobs. -/
def jobStatusColumn (jobs : JobTable) : List JobStatus := jobs.rows.map fun entry => entry.row.status

/-- The queues and statuses of all jobs. -/
def jobDepthColumns (jobs : JobTable) : List (QueueName × JobStatus) :=
  jobs.rows.map fun entry => (entry.row.queueName, entry.row.status)

/-- `_exact_counts_by_status`. -/
def exactCountsByStatus (jobs : JobTable) : List StatsCountsRow :=
  (groupCounts StatusOrder (jobStatusColumn jobs)).map fun (status, count) => ⟨status, count⟩

/-- `_exact_queue_depth`. -/
def exactQueueDepth (jobs : JobTable) : List QueueDepthRow :=
  (groupCounts DepthOrder (jobDepthColumns jobs)).map fun ((q, status), count) => ⟨q, status, count⟩

/-- The queries whose plans are asked for. -/
inductive PlanQuery
  | status (status : JobStatus)
  | queueStatus (q : QueueName) (status : JobStatus)

/-- What the database knows about the size of the table: its `reltuples`, and the decoded plan of each
query. -/
structure Planner where
  reltuples : Int
  plan : PlanQuery → PyValue

/-- `APPROXIMATE_ROW_THRESHOLD`. -/
def approximateRowThreshold : Int := 1000000

/-- `GREATEST(COALESCE(NULLIF(reltuples, -1), 0), 0)`. -/
def estimatedRowCount (planner : Planner) : Int :=
  max (if planner.reltuples = -1 then 0 else planner.reltuples) 0

/-- `_uses_estimates`. -/
def usesEstimates (planner : Planner) : Bool := approximateRowThreshold ≤ estimatedRowCount planner

/-- `_extract_plan_rows`; the number of rows in a plan is an integer, of anything else `int()` may raise. -/
def extractPlanRows : PyValue → Option ℕ
  | .list (.dict root :: _) =>
    match lookup root "Plan" with
    | some (.dict plan) =>
      match lookup plan "Plan Rows" with
      | none => some 0
      | some (.int rows) => some rows.toNat
      | some (.bool rows) => some rows.toNat
      | some _ => none
    | _ => some 0
  | _ => some 0

/-- `_estimated_counts_by_status`. -/
def estimatedCountsByStatus (planner : Planner) : Option (List StatsCountsRow) :=
  (probeCounts (fun status => extractPlanRows (planner.plan (.status status))) jobStatuses).map fun rows =>
    rows.map fun (status, count) => ⟨status, count⟩

/-- `_queue_names`. -/
def statsQueueNames (queues : QueueTable) : List QueueName :=
  (queues.rows.map QueueRow.name).insertionSort (· ≤ ·)

/-- The queries of `_estimated_queue_depth`, in its order. -/
def depthCandidates (queues : QueueTable) : List (QueueName × JobStatus) :=
  (statsQueueNames queues).flatMap fun q => jobStatuses.map fun status => (q, status)

/-- `_estimated_queue_depth`. -/
def estimatedQueueDepth (planner : Planner) (queues : QueueTable) : Option (List QueueDepthRow) :=
  (probeCounts (fun (q, status) => extractPlanRows (planner.plan (.queueStatus q status)))
    (depthCandidates queues)).map fun rows => rows.map fun ((q, status), count) => ⟨q, status, count⟩

/-- `counts_by_status`, in the state that its statements see. -/
def countsByStatus (approximate : Bool) (planner : Planner) (s : State) : Option (List StatsCountsRow) :=
  if approximate && usesEstimates planner then estimatedCountsByStatus planner
  else some (exactCountsByStatus s.jobs)

/-- `queue_depth`, in the state that its statements see. -/
def queueDepth (approximate : Bool) (planner : Planner) (s : State) : Option (List QueueDepthRow) :=
  if approximate && usesEstimates planner then estimatedQueueDepth planner s.queues
  else some (exactQueueDepth s.jobs)

/-- When the pending jobs have been created. -/
def pendingCreated (jobs : JobTable) : List Timestamp :=
  (jobs.rows.filter fun entry => entry.row.status = .pending).map fun entry => entry.row.createdAt

/-- `EXTRACT(EPOCH FROM (now() - created))`. -/
def ageSeconds (now created : Timestamp) : ℚ := Int.cast (now - created) / 1000000

/-- `oldest_pending_age_seconds`, in a transaction that began at `now`. -/
def oldestPendingAgeSeconds (now : Timestamp) (jobs : JobTable) : Option ℚ :=
  (pendingCreated jobs).min?.map (ageSeconds now)

/-- `StatsResponse`; the dictionary `counts` is built from rows of different statuses. -/
structure StatsResponse where
  counts : List StatsCountsRow
  queueDepth : List QueueDepthRow
  oldestPendingAgeSeconds : Option ℚ
  approximate : Bool

/-- `get_stats`. Its three queries see the states `s₁`, `s₂` and `s₃`, and the first two of them ask the
planner. -/
def getStats (approximate : Bool) (now : Timestamp) (planner₁ planner₂ : Planner) (s₁ s₂ s₃ : State) :
    Option StatsResponse :=
  (countsByStatus approximate planner₁ s₁).bind fun counts =>
    (PgRelay.queueDepth approximate planner₂ s₂).map fun depths =>
      ⟨counts, depths, PgRelay.oldestPendingAgeSeconds now s₃.jobs, approximate⟩

/-! ## Exact statistics -/

/-- How many jobs have a status. -/
def jobsOf (jobs : JobTable) (status : JobStatus) : ℕ := jobs.count fun entry => entry.row.status = status

/-- How many jobs of a queue have a status. -/
def jobsOfQueue (jobs : JobTable) (q : QueueName) (status : JobStatus) : ℕ :=
  jobs.count fun entry => entry.row.queueName = q ∧ entry.row.status = status

/-- The jobs of a status that the depths of the queues add up to. -/
def StatsResponse.depthOf (r : StatsResponse) (status : JobStatus) : ℕ :=
  ((r.queueDepth.filter fun row => row.status = status).map QueueDepthRow.count).sum

/-- The rows of a response are exactly the statuses that occur in `s₁`, and the queues and statuses that
occur in `s₂`, each of them once and with the number of its jobs; the age is that of the oldest pending job
in `s₃`, and the two counts of a status differ by at most `operations`. -/
structure ExactStats (now : Timestamp) (s₁ s₂ s₃ : State) (operations : ℕ) (r : StatsResponse) : Prop where
  counts : ∀ status n, ⟨status, n⟩ ∈ r.counts ↔ 0 < n ∧ jobsOf s₁.jobs status = n
  countedOnce : (r.counts.map StatsCountsRow.status).Nodup
  total : (r.counts.map StatsCountsRow.count).sum = s₁.jobs.rows.length
  depths : ∀ q status n, ⟨q, status, n⟩ ∈ r.queueDepth ↔ 0 < n ∧ jobsOfQueue s₂.jobs q status = n
  depthOnce : (r.queueDepth.map fun row => (row.queueName, row.status)).Nodup
  drift : ∀ status, r.depthOf status ≤ jobsOf s₁.jobs status + operations ∧
    jobsOf s₁.jobs status ≤ r.depthOf status + operations
  none_pending : r.oldestPendingAgeSeconds = none ↔ ∀ entry ∈ s₃.jobs.rows, entry.row.status ≠ .pending
  oldest : ∀ age, r.oldestPendingAgeSeconds = some age →
    (∃ entry ∈ s₃.jobs.rows, entry.row.status = .pending ∧ age = ageSeconds now entry.row.createdAt) ∧
    ∀ entry ∈ s₃.jobs.rows, entry.row.status = .pending → ageSeconds now entry.row.createdAt ≤ age

/-- The size of a group of statuses is the number of the jobs with the status. -/
theorem groupSize_jobStatusColumn (jobs : JobTable) (status : JobStatus) :
    groupSize (jobStatusColumn jobs) status = jobsOf jobs status := by
  rw [groupSize, jobStatusColumn, jobsOf, Table.count, List.countP_map, List.countP_eq_length_filter]
  rfl

/-- The size of a group of queues and statuses is the number of the jobs of both. -/
theorem groupSize_jobDepthColumns (jobs : JobTable) (q : QueueName) (status : JobStatus) :
    groupSize (jobDepthColumns jobs) (q, status) = jobsOfQueue jobs q status := by
  rw [groupSize, jobDepthColumns, jobsOfQueue, Table.count, List.countP_map, List.countP_eq_length_filter]
  congr 1
  exact List.filter_congr fun entry _ => by simp

/-- The exact counts are those of the statuses that occur. -/
theorem mem_exactCountsByStatus {jobs : JobTable} {status : JobStatus} {n : ℕ} :
    ⟨status, n⟩ ∈ exactCountsByStatus jobs ↔ 0 < n ∧ jobsOf jobs status = n := by
  rw [← groupSize_jobStatusColumn, ← mem_groupCounts StatusOrder]
  simp [exactCountsByStatus]

/-- The exact depths are those of the queues and statuses that occur. -/
theorem mem_exactQueueDepth {jobs : JobTable} {q : QueueName} {status : JobStatus} {n : ℕ} :
    ⟨q, status, n⟩ ∈ exactQueueDepth jobs ↔ 0 < n ∧ jobsOfQueue jobs q status = n := by
  rw [← groupSize_jobDepthColumns, ← mem_groupCounts DepthOrder]
  simp [exactQueueDepth]

/-- Every status is counted once. -/
theorem nodup_exactCountsByStatus (jobs : JobTable) :
    ((exactCountsByStatus jobs).map StatsCountsRow.status).Nodup := by
  rw [exactCountsByStatus, List.map_map]
  exact nodup_groupCounts

/-- Every queue and status is counted once. -/
theorem nodup_exactQueueDepth (jobs : JobTable) :
    ((exactQueueDepth jobs).map fun row => (row.queueName, row.status)).Nodup := by
  rw [exactQueueDepth, List.map_map]
  exact nodup_groupCounts

/-- The exact counts add up to the number of the jobs. -/
theorem sum_exactCountsByStatus (jobs : JobTable) :
    ((exactCountsByStatus jobs).map StatsCountsRow.count).sum = jobs.rows.length := by
  have hsum := sum_groupCounts StatusOrder (jobStatusColumn jobs) fun _ => true
  rw [List.filter_true, List.countP_true, jobStatusColumn, List.length_map] at hsum
  rw [exactCountsByStatus, List.map_map]
  exact hsum

/-- The depths of the queues add up to the jobs of a status. -/
theorem sum_exactQueueDepth (jobs : JobTable) (status : JobStatus) :
    (((exactQueueDepth jobs).filter fun row => row.status = status).map QueueDepthRow.count).sum =
      jobsOf jobs status := by
  have hsum := sum_groupCounts DepthOrder (jobDepthColumns jobs) fun g => g.2 = status
  rw [exactQueueDepth, List.filter_map, List.map_map]
  rw [jobDepthColumns, List.countP_map, List.countP_eq_length_filter] at hsum
  exact hsum

/-- While others commit, a count of the jobs changes by at most one for each of their operations. -/
theorem count_le_of_reaches (h : Reaches step s s') (p : JobEntry → Bool) : s.log.length ≤ s'.log.length ∧
    s'.jobs.count p ≤ s.jobs.count p + (s'.log.length - s.log.length) ∧
    s.jobs.count p ≤ s'.jobs.count p + (s'.log.length - s.log.length) := by
  refine ReachesUnder.invariant (I := fun s' => s.log.length ≤ s'.log.length ∧
    s'.jobs.count p ≤ s.jobs.count p + (s'.log.length - s.log.length) ∧
    s.jobs.count p ≤ s'.jobs.count p + (s'.log.length - s.log.length)) h (by omega) ?_
  rintro mid a s' ⟨hlog, hmore, hless⟩ - hs
  rcases step_cases hs with ⟨elapsed, -, rfl⟩ | ⟨request, task, -, hr, rfl⟩ |
    ⟨u, U, effect, hU, he, rfl⟩ | ⟨u, U, -, hU, -, rfl⟩ | ⟨u, U, -, -, rfl⟩
  · exact ⟨hlog, hmore, hless⟩
  · exact ⟨hlog, hmore, hless⟩
  · exact ⟨hlog, hmore, hless⟩
  · obtain ⟨hgain, hloss⟩ := Dynamics.count_applyChanges (D := jobDynamics) mid.jobs U.changes p
    have hlength : (mid.commit u U).log.length = mid.log.length + U.changes.length := by
      simp [State.commit]
    have hjobs : (mid.commit u U).jobs = jobDynamics.applyChanges mid.jobs U.changes := rfl
    rw [hlength, hjobs]
    omega
  · exact ⟨hlog, hmore, hless⟩

/-- The creation times of the pending jobs. -/
theorem mem_pendingCreated {jobs : JobTable} {created : Timestamp} : created ∈ pendingCreated jobs ↔
    ∃ entry ∈ jobs.rows, entry.row.status = .pending ∧ entry.row.createdAt = created := by
  simp [pendingCreated, and_assoc]

/-- What was created earlier is older. -/
theorem ageSeconds_le {now created created' : Timestamp} (h : created' ≤ created) :
    ageSeconds now created ≤ ageSeconds now created' := by
  have hlater : now - created ≤ now - created' := Int.sub_le_sub_left h now
  exact div_le_div_of_nonneg_right (Int.cast_le.mpr hlater) (by norm_num)

/-- Statistics that are counted describe the states in which their statements ran, whatever is committed in
between. -/
theorem stats_exact {s₁ s₂ s₃ : State} (h : Reaches step s₁ s₂) (now : Timestamp) (planner₁ planner₂ : Planner) :
    ∃ r, getStats false now planner₁ planner₂ s₁ s₂ s₃ = some r ∧
      ExactStats now s₁ s₂ s₃ (s₂.log.length - s₁.log.length) r := by
  refine ⟨⟨exactCountsByStatus s₁.jobs, exactQueueDepth s₂.jobs, oldestPendingAgeSeconds now s₃.jobs, false⟩, rfl, ?_⟩
  exact {
    counts := fun _ _ => mem_exactCountsByStatus
    countedOnce := nodup_exactCountsByStatus s₁.jobs
    total := sum_exactCountsByStatus s₁.jobs
    depths := fun _ _ _ => mem_exactQueueDepth
    depthOnce := nodup_exactQueueDepth s₂.jobs
    drift := fun status => by
      rw [StatsResponse.depthOf, sum_exactQueueDepth]
      exact (count_le_of_reaches h _).2
    none_pending := by
      simp [oldestPendingAgeSeconds, pendingCreated, List.filter_eq_nil_iff]
    oldest := by
      intro age hage
      obtain ⟨created, hmin, rfl⟩ := Option.map_eq_some_iff.mp hage
      obtain ⟨hmem, hleast⟩ := List.min?_eq_some_iff.mp hmin
      obtain ⟨entry, hentry, hpending, rfl⟩ := mem_pendingCreated.mp hmem
      exact ⟨⟨entry, hentry, hpending, rfl⟩, fun entry' hentry' hpending' =>
        ageSeconds_le (hleast _ (mem_pendingCreated.mpr ⟨entry', hentry', hpending', rfl⟩))⟩ }

/-! ## Estimated statistics -/

/-- The planner knows how many rows each of its queries has. -/
structure Planner.Exact (planner : Planner) (jobs : JobTable) : Prop where
  status : ∀ status, extractPlanRows (planner.plan (.status status)) = some (jobsOf jobs status)
  queueStatus : ∀ q status,
    extractPlanRows (planner.plan (.queueStatus q status)) = some (jobsOfQueue jobs q status)

/-- The list of statuses is complete. -/
theorem mem_jobStatuses (status : JobStatus) : status ∈ jobStatuses := by cases status <;> decide

/-- The names for the estimates are those of the queues. -/
theorem mem_statsQueueNames {queues : QueueTable} {q : QueueName} :
    q ∈ statsQueueNames queues ↔ queues.get q ≠ none := by
  rw [statsQueueNames, List.mem_insertionSort, List.mem_map]
  constructor
  · rintro ⟨row, hrow, rfl⟩
    simp [Table.get_of_mem hrow]
  · intro hthere
    obtain ⟨row, hget⟩ := Option.ne_none_iff_exists'.mp hthere
    obtain ⟨hmem, hname⟩ := (Table.get_eq_some_iff _ _ _).mp hget
    exact ⟨row, hmem, hname⟩

/-- Every queue is asked for in every status. -/
theorem mem_depthCandidates {queues : QueueTable} {q : QueueName} {status : JobStatus} :
    (q, status) ∈ depthCandidates queues ↔ queues.get q ≠ none := by
  simp [depthCandidates, mem_statsQueueNames, mem_jobStatuses]

/-- No pair of a queue and a status is asked for twice. -/
theorem nodup_depthCandidates (queues : QueueTable) : (depthCandidates queues).Nodup := by
  have hnames : (statsQueueNames queues).Nodup :=
    (List.perm_insertionSort _ _).nodup_iff.mpr queues.nodup
  refine List.nodup_flatMap.mpr ⟨fun q _ => ?_, hnames.imp fun hne => ?_⟩
  · exact List.Nodup.map (fun _ _ h => (Prod.mk.inj h).2) (by decide)
  · intro pair hq hq'
    obtain ⟨_, -, rfl⟩ := List.mem_map.mp hq
    obtain ⟨_, -, heq⟩ := List.mem_map.mp hq'
    exact hne (Prod.mk.inj heq).1.symm

/-- Every status, and every queue and status, is in at most one row, and no row counts nothing. -/
structure StatsResponse.Distinct (r : StatsResponse) : Prop where
  countedOnce : (r.counts.map StatsCountsRow.status).Nodup
  counted : ∀ row ∈ r.counts, 0 < row.count
  depthOnce : (r.queueDepth.map fun row => (row.queueName, row.status)).Nodup
  deep : ∀ row ∈ r.queueDepth, 0 < row.count

/-- Exact or estimated, every status is counted once and not with zero. -/
theorem distinct_countsByStatus {approximate : Bool} {planner : Planner} {rows : List StatsCountsRow}
    (h : countsByStatus approximate planner s = some rows) :
    (rows.map StatsCountsRow.status).Nodup ∧ ∀ row ∈ rows, 0 < row.count := by
  unfold countsByStatus at h
  split_ifs at h
  · obtain ⟨pairs, hpairs, rfl⟩ := Option.map_eq_some_iff.mp h
    refine ⟨?_, fun row hrow => ?_⟩
    · rw [List.map_map]
      exact (sublist_probeCounts hpairs).nodup (by decide)
    · obtain ⟨⟨status, n⟩, hmem, rfl⟩ := List.mem_map.mp hrow
      exact ((mem_probeCounts hpairs).mp hmem).2.2
  · obtain rfl := Option.some.inj h
    exact ⟨nodup_exactCountsByStatus s.jobs, fun _ hrow => (mem_exactCountsByStatus.mp hrow).1⟩

/-- So are the queues in every status. -/
theorem distinct_queueDepth {approximate : Bool} {planner : Planner} {rows : List QueueDepthRow}
    (h : queueDepth approximate planner s = some rows) :
    (rows.map fun row => (row.queueName, row.status)).Nodup ∧ ∀ row ∈ rows, 0 < row.count := by
  unfold queueDepth at h
  split_ifs at h
  · obtain ⟨pairs, hpairs, rfl⟩ := Option.map_eq_some_iff.mp h
    refine ⟨?_, fun row hrow => ?_⟩
    · rw [List.map_map]
      exact (sublist_probeCounts hpairs).nodup (nodup_depthCandidates s.queues)
    · obtain ⟨⟨⟨q, status⟩, n⟩, hmem, rfl⟩ := List.mem_map.mp hrow
      exact ((mem_probeCounts hpairs).mp hmem).2.2
  · obtain rfl := Option.some.inj h
    exact ⟨nodup_exactQueueDepth s.jobs, fun _ hrow => (mem_exactQueueDepth.mp hrow).1⟩

/-- So it is in a response. -/
theorem distinct_of_getStats {approximate : Bool} {now : Timestamp} {planner₁ planner₂ : Planner}
    {s₁ s₂ s₃ : State} {r : StatsResponse} (hr : getStats approximate now planner₁ planner₂ s₁ s₂ s₃ = some r) :
    r.Distinct := by
  obtain ⟨counts, hcounts, hr⟩ := Option.bind_eq_some_iff.mp hr
  obtain ⟨depths, hdepths, rfl⟩ := Option.map_eq_some_iff.mp hr
  obtain ⟨hcounted, hpos⟩ := distinct_countsByStatus hcounts
  obtain ⟨honce, hdeep⟩ := distinct_queueDepth hdepths
  exact ⟨hcounted, hpos, honce, hdeep⟩

/-- An exact planner estimates the exact counts. -/
theorem perm_estimatedCountsByStatus {planner : Planner} {jobs : JobTable} (hexact : planner.Exact jobs) :
    ∃ rows, estimatedCountsByStatus planner = some rows ∧ rows.Perm (exactCountsByStatus jobs) := by
  have hsizes (status : JobStatus) : extractPlanRows (planner.plan (.status status)) =
      some (groupSize (jobStatusColumn jobs) status) := by
    rw [groupSize_jobStatusColumn]
    exact hexact.status status
  obtain ⟨pairs, hpairs⟩ := exists_probeCounts jobStatuses
    fun status _ => Option.isSome_iff_exists.mpr ⟨_, hsizes status⟩
  refine ⟨_, Option.map_eq_some_iff.mpr ⟨pairs, hpairs, rfl⟩, List.Perm.map _ ?_⟩
  exact perm_probeCounts hpairs (by decide) (fun status _ => mem_jobStatuses status) fun status _ => hsizes status

/-- The queues of the estimate are all that have jobs: the queue of a job is there. -/
theorem perm_estimatedQueueDepth {planner : Planner} (h : Reachable s) (hexact : planner.Exact s.jobs) :
    ∃ rows, estimatedQueueDepth planner s.queues = some rows ∧ rows.Perm (exactQueueDepth s.jobs) := by
  have hsizes (g : QueueName × JobStatus) : extractPlanRows (planner.plan (.queueStatus g.1 g.2)) =
      some (groupSize (jobDepthColumns s.jobs) g) := by
    rw [groupSize_jobDepthColumns]
    exact hexact.queueStatus g.1 g.2
  have hcover : jobDepthColumns s.jobs ⊆ depthCandidates s.queues := by
    intro g hg
    obtain ⟨entry, hentry, rfl⟩ := List.mem_map.mp hg
    exact mem_depthCandidates.mpr (h.queue_of_get (Table.get_of_mem hentry))
  obtain ⟨pairs, hpairs⟩ := exists_probeCounts (depthCandidates s.queues)
    fun g _ => Option.isSome_iff_exists.mpr ⟨_, hsizes g⟩
  refine ⟨_, Option.map_eq_some_iff.mpr ⟨pairs, hpairs, rfl⟩, List.Perm.map _ ?_⟩
  exact perm_probeCounts hpairs (nodup_depthCandidates s.queues) hcover fun g _ => hsizes g

/-- Approximate statistics have distinct rows, whatever the planner says; and if it is right, they are those
that counting gives, up to the order of the rows. -/
theorem estimates_agree (h : Reachable s) (now : Timestamp) (planner : Planner) :
    (∀ r, getStats true now planner planner s s s = some r → r.Distinct) ∧
    (planner.Exact s.jobs →
      ∃ r r', getStats true now planner planner s s s = some r ∧ getStats false now planner planner s s s = some r' ∧
        r.counts.Perm r'.counts ∧ r.queueDepth.Perm r'.queueDepth ∧
        r.oldestPendingAgeSeconds = r'.oldestPendingAgeSeconds) := by
  refine ⟨fun r hr => distinct_of_getStats hr, fun hexact => ?_⟩
  obtain ⟨counts, hcounts, hcountsPerm⟩ := perm_estimatedCountsByStatus hexact
  obtain ⟨depths, hdepths, hdepthsPerm⟩ := perm_estimatedQueueDepth h hexact
  by_cases hlarge : usesEstimates planner = true
  · exact ⟨⟨counts, depths, oldestPendingAgeSeconds now s.jobs, true⟩, _,
      by simp [getStats, countsByStatus, PgRelay.queueDepth, hlarge, hcounts, hdepths], rfl,
      hcountsPerm, hdepthsPerm, rfl⟩
  · exact ⟨⟨exactCountsByStatus s.jobs, exactQueueDepth s.jobs, oldestPendingAgeSeconds now s.jobs, true⟩, _,
      by simp [getStats, countsByStatus, PgRelay.queueDepth, hlarge], rfl, .refl _, .refl _, rfl⟩

/-- A planner that explains every query with the number of its rows. -/
def countingPlanner (jobs : JobTable) : Planner where
  reltuples := 1000000
  plan query :=
    let rows := match query with
      | .status status => jobsOf jobs status
      | .queueStatus q status => jobsOfQueue jobs q status
    .list [.dict [(ofString "Plan", .dict [(ofString "Plan Rows", .int rows)])]]

/-- A planner that counts is exact. -/
theorem exact_countingPlanner (jobs : JobTable) : (countingPlanner jobs).Exact jobs where
  status status := by simp [countingPlanner, extractPlanRows, lookup]
  queueStatus q status := by simp [countingPlanner, extractPlanRows, lookup]

/-- Statistics whose first statement runs before a job is enqueued and claimed, and whose others run after. -/
theorem stats_exact_claimedRun : ∃ s, run step (State.init 0) claimedRun = some s ∧
    ∃ r, getStats false 0 (countingPlanner s.jobs) (countingPlanner s.jobs) (State.init 0) s s = some r ∧
      ExactStats 0 (State.init 0) s s (s.log.length - (State.init 0).log.length) r := by
  have hrun : (run step (State.init 0) claimedRun).isSome = true := by decide +kernel
  obtain ⟨s, hs⟩ := Option.isSome_iff_exists.mp hrun
  exact ⟨s, hs, stats_exact (reaches_of_run hs) 0 _ _⟩

/-- The statistics of one leased job. -/
theorem estimates_agree_claimedRun : ∃ s, run step (State.init 0) claimedRun = some s ∧
    ∃ r r', getStats true 0 (countingPlanner s.jobs) (countingPlanner s.jobs) s s s = some r ∧
      getStats false 0 (countingPlanner s.jobs) (countingPlanner s.jobs) s s s = some r' ∧
      r.counts.Perm r'.counts ∧ r.queueDepth.Perm r'.queueDepth ∧
      r.oldestPendingAgeSeconds = r'.oldestPendingAgeSeconds := by
  have hrun : (run step (State.init 0) claimedRun).isSome = true := by decide +kernel
  obtain ⟨s, hs⟩ := Option.isSome_iff_exists.mp hrun
  exact ⟨s, hs, (estimates_agree ⟨0, reaches_of_run hs⟩ 0 (countingPlanner s.jobs)).2 (exact_countingPlanner s.jobs)⟩

end PgRelay
