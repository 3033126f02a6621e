import PgRelay.Selection.Greedy
import PgRelay.ClaimDeadlock

/-!
# Which jobs a claim leases

`claim_jobs` alone with the database. Its query limits a subquery for each queue to the free slots of the
queue and then limits the union to the batch size. The result is the greedy schedule: scan the eligible
jobs of all queues by priority, due time and age, and lease each one whose queue has a free slot, until the
batch is full. `ORDER BY` leaves the order of equal jobs open, in the subqueries and in the outer query
alike.

The statement visits the queues and their candidates one at a time. While nobody else holds a lock, what it
has picked and what it still has to pick make up the quotas of all queues, and every visit finds the
candidate as the snapshot has it.
-/

namespace PgRelay

open RowStore Selection

variable {s s' : State} {t : TxnId} {T : Txn} {effect : Effect}

/-! ## The schedule -/

/-- `ORDER BY priority DESC, available_at ASC, created_at ASC` on the jobs with their attempts. -/
def ClaimOrder (a b : JobEntry) : Prop := ClaimsBefore a.row b.row

instance : DecidableRel ClaimOrder := fun a b => inferInstanceAs (Decidable (ClaimsBefore a.row b.row))

instance : Std.Total ClaimOrder where
  total a b := by
    have hlex (p q x y c d : Int) : (q < p ∨ q = p ∧ (x < y ∨ x = y ∧ c ≤ d)) ∨
        (p < q ∨ p = q ∧ (y < x ∨ y = x ∧ d ≤ c)) := by omega
    exact hlex _ _ _ _ _ _

instance : IsTrans JobEntry ClaimOrder where
  trans a b c := by
    have hlex (p q o x y z c d e : Int) : (q < p ∨ q = p ∧ (x < y ∨ x = y ∧ c ≤ d)) →
        (o < q ∨ o = q ∧ (y < z ∨ y = z ∧ d ≤ e)) → (o < p ∨ o = p ∧ (x < z ∨ x = z ∧ c ≤ e)) := by omega
    exact hlex _ _ _ _ _ _ _ _ _

/-- The queue of a job. -/
def JobEntry.queue (entry : JobEntry) : QueueName := entry.row.queueName

/-- The queue is requested, exists and is not paused. -/
def ServesQueue (names : List QueueName) (queues : QueueTable) (q : QueueName) : Prop :=
  q ∈ names ∧ (queues.get q).any (fun row => !row.paused) = true

instance (names : List QueueName) (queues : QueueTable) (q : QueueName) : Decidable (ServesQueue names queues q) :=
  inferInstanceAs (Decidable (_ ∧ _))

/-- The jobs that may be leased: pending, due, with attempts left, and of a queue that is served. -/
def Eligible (now : Timestamp) (names : List QueueName) (queues : QueueTable) (entry : JobEntry) : Prop :=
  Claimable now entry.row ∧ ServesQueue names queues entry.queue

instance (now : Timestamp) (names : List QueueName) (queues : QueueTable) (entry : JobEntry) :
    Decidable (Eligible now names queues entry) :=
  inferInstanceAs (Decidable (_ ∧ _))

/-- The eligible jobs of the table. -/
def claimableJobs (now : Timestamp) (names : List QueueName) (queues : QueueTable) (jobs : JobTable) :
    List JobEntry :=
  jobs.rows.filter fun entry => Eligible now names queues entry

/-- The free slots of a queue: its limit minus its leased jobs, and at least 0. -/
def freeSlots (queues : QueueTable) (jobs : JobTable) (q : QueueName) : ℕ :=
  match queues.get q with
  | none => 0
  | some row => (row.concurrencyLimit - leasedCount jobs q).toNat

/-- The rows that `picked` of `claim_jobs_statement` finds, with ties broken somehow. -/
def ClaimSelects (now : Timestamp) (names : List QueueName) (batchSize : ℕ) (queues : QueueTable) (jobs : JobTable)
    (claimed : List JobEntry) : Prop :=
  Selects ClaimOrder JobEntry.queue (freeSlots queues jobs) batchSize (claimableJobs now names queues jobs) claimed

/-- The claimed jobs are the greedy schedule, up to ties. -/
structure GreedySchedule (now : Timestamp) (names : List QueueName) (batchSize : ℕ) (queues : QueueTable)
    (jobs : JobTable) (claimed : List JobEntry) : Prop where
  scan : ∃ order, Ranks ClaimOrder (claimableJobs now names queues jobs) order ∧
    (greedy JobEntry.queue (freeSlots queues jobs) batchSize order).Perm claimed
  count : claimed.length = min batchSize (((unpausedQueues names queues).map fun q =>
    min (freeSlots queues jobs q) (inGroup JobEntry.queue q (claimableJobs now names queues jobs)).length).sum)
  fair : ∀ entry ∈ claimableJobs now names queues jobs, entry ∉ claimed →
    ∀ later ∈ claimed, ¬ ClaimOrder later entry →
      (inGroup JobEntry.queue entry.queue claimed).length = freeSlots queues jobs entry.queue

/-- The table after the update of the claimed jobs. -/
def Leases (now : Timestamp) (args : ClaimArgs) (claimed : List JobEntry) (jobs jobs' : JobTable) : Prop :=
  (∀ entry ∈ claimed, jobs'.get entry.id =
    some { entry with row := claimUpdate now args.worker args.leaseSeconds entry.row }) ∧
  ∀ id, id ∉ claimed.map JobEntry.id → jobs'.get id = jobs.get id

/-- The queues that a claim locks are those it serves. -/
theorem mem_unpausedQueues {names : List QueueName} {queues : QueueTable} {q : QueueName} :
    q ∈ unpausedQueues names queues ↔ ServesQueue names queues q := by
  simp only [unpausedQueues, List.mem_insertionSort, List.mem_map, List.mem_filter, Bool.and_eq_true,
    Bool.not_eq_true', decide_eq_true_eq, ServesQueue]
  constructor
  · rintro ⟨row, ⟨hmem, hpaused, hname⟩, rfl⟩
    exact ⟨hname, by simp [Table.get_of_mem hmem, hpaused]⟩
  · rintro ⟨hname, hserved⟩
    cases hget : queues.get q with
    | none => simp [hget] at hserved
    | some row =>
      obtain ⟨hmem, rfl⟩ := (Table.get_eq_some_iff _ _ _).mp hget
      exact ⟨row, ⟨hmem, by simpa [hget] using hserved, hname⟩, rfl⟩

/-- The jobs of the schedule are the eligible rows of the table. -/
theorem mem_claimableJobs {now : Timestamp} {names : List QueueName} {queues : QueueTable} {jobs : JobTable}
    {entry : JobEntry} :
    entry ∈ claimableJobs now names queues jobs ↔ entry ∈ jobs.rows ∧ Eligible now names queues entry := by
  simp [claimableJobs]

/-- Whatever the query finds is the greedy schedule. -/
theorem ClaimSelects.greedySchedule {now : Timestamp} {names : List QueueName} {batchSize : ℕ} {queues : QueueTable}
    {jobs : JobTable} {claimed : List JobEntry} (h : ClaimSelects now names batchSize queues jobs claimed) :
    GreedySchedule now names batchSize queues jobs claimed := by
  obtain ⟨order, ranked, h⟩ := h
  have hnodup : (claimableJobs now names queues jobs).Nodup := (List.Nodup.of_map _ jobs.nodup).filter _
  have hchoice := h.greedyChoice hnodup
  refine ⟨hchoice.exists_order hnodup, h.length_chosen (nodup_unpausedQueues _ _) fun entry hentry => ?_, ?_⟩
  · exact mem_unpausedQueues.mpr (mem_claimableJobs.mp hentry).2.2
  · intro entry hentry hleft later hlater hafter
    exact hchoice.not_passed_over hentry hleft hlater hafter

/-! ## The statement, alone -/

/-- Nobody else holds a lock. -/
structure Alone (s : State) (t : TxnId) : Prop where
  jobs : ∀ id, Free s.jobLocks id t
  queues : ∀ q, Free s.queueLocks q t
  shares : ∀ q, Unshared s.queueShares q t

/-- The transaction takes a step. -/
def OwnStep (t : TxnId) (_ : State) (a : Action) : Prop := a = .advance t ∨ a = .scan t

/-- What a claim finds while it is alone: the tables are those of its start. -/
structure Finds (now : Timestamp) (queues : QueueTable) (jobs : JobTable) (s : State) (t : TxnId) (T : Txn) : Prop where
  txn : s.txns t = some T
  now_eq : T.now = now
  view_eq : T.view s = jobs
  queueView_eq : T.queueView s = queues
  alone : Alone s t

/-- A lock that is free for a transaction stays so when it takes one itself. -/
theorem free_takeLock {α : Type} [DecidableEq α] {locks : α → Option TxnId} {k : α} (h : Free locks k t)
    (lock : Option α) : Free (takeLock locks t lock) k t := by
  cases lock with
  | none => exact h
  | some k' =>
    by_cases hk : k = k'
    · subst hk
      exact .inr (takeLock_self locks t k)
    · simpa [Free, takeLock, hk] using h

/-- A lock that only the transaction shares stays so. -/
theorem unshared_takeShare {α : Type} [DecidableEq α] {shares : α → List TxnId} {k : α} (h : Unshared shares k t)
    (asked : Option α) : Unshared (takeShare shares t asked) k t :=
  fun holder hholder => (mem_takeShare.mp hholder).elim (h holder) And.right

variable {now : Timestamp} {queues : QueueTable} {jobs : JobTable} {args : ClaimArgs}

/-- A statement that changes nothing leaves a claim what it finds. -/
theorem Finds.perform (h : Finds now queues jobs s t T) (hchanges : effect.changes = [])
    (hwrites : effect.queueWrites = []) : Finds now queues jobs (s.perform t T effect) t (T.after effect) where
  txn := by simp [State.perform]
  now_eq := h.now_eq
  view_eq := (view_perform_of_nil hchanges).trans h.view_eq
  queueView_eq := by
    rw [queueView_perform, hwrites]
    exact h.queueView_eq
  alone := ⟨fun id => free_takeLock (h.alone.jobs id) _, fun q => free_takeLock (h.alone.queues q) _,
    fun q => unshared_takeShare (h.alone.shares q) _⟩

/-- The candidates of a queue that its slots admit. -/
def quota (now : Timestamp) (queues : QueueTable) (jobs : JobTable) (q : QueueName) : List JobId :=
  (claimCandidates now jobs q).take (freeSlots queues jobs q)

/-- The candidates of an active queue that its slots still admit. -/
def ActiveQueue.rest (a : ActiveQueue) : List JobId := a.candidates.take a.slots

/-- The candidates of an active queue are claimable jobs of the queue. -/
def ActiveQueue.Sound (now : Timestamp) (jobs : JobTable) (a : ActiveQueue) : Prop :=
  ∀ id ∈ a.candidates, ∃ entry, jobs.get id = some entry ∧ entry.queue = a.name ∧ Claimable now entry.row

/-- Inside the claim statement, what has been picked and what is still to be picked are the quotas of all
queues. -/
structure Picks (now : Timestamp) (names : List QueueName) (queues : QueueTable) (jobs : JobTable)
    (todo : List QueueName) (active : List ActiveQueue) (picked : List JobId) : Prop where
  served : ∀ q ∈ todo, ServesQueue names queues q
  sound : ∀ a ∈ active, a.Sound now jobs
  quotas : (picked ++ (active.flatMap ActiveQueue.rest ++ todo.flatMap (quota now queues jobs))).Perm
    ((unpausedQueues names queues).flatMap (quota now queues jobs))

/-- Where a claim that is alone stands. -/
def ClaimPc.Alone (now : Timestamp) (names : List QueueName) (queues : QueueTable) (jobs : JobTable) : ClaimPc → Prop
  | .lockingQueues _ | .queuesLocked => True
  | .claiming snapshot todo active picked => snapshot = jobs ∧ Picks now names queues jobs todo active picked
  | _ => False

/-- How many steps a claim that is alone has before it, at most. -/
def ClaimPc.steps (now : Timestamp) (names : List QueueName) (queues : QueueTable) (jobs : JobTable) : ClaimPc → ℕ
  | .lockingQueues todo => todo.length + 3 +
      ((unpausedQueues names queues).map fun q => (claimCandidates now jobs q).length + 2).sum
  | .queuesLocked => 2 + ((unpausedQueues names queues).map fun q => (claimCandidates now jobs q).length + 2).sum
  | .claiming _ todo active _ => 1 + (todo.map fun q => (claimCandidates now jobs q).length + 2).sum +
      (active.map fun a => a.candidates.length + 1).sum
  | _ => 0

/-- A candidate of a queue is one of its claimable jobs. -/
theorem claimCandidates_sound {q : QueueName} {id : JobId} (h : id ∈ claimCandidates now jobs q) :
    ∃ entry, jobs.get id = some entry ∧ entry.queue = q ∧ Claimable now entry.row := by
  obtain ⟨entry, hentry, rfl⟩ := List.mem_map.mp h
  obtain ⟨hmem, hclaim⟩ := List.mem_filter.mp ((List.mem_insertionSort _).mp hentry)
  obtain ⟨hqueue, hclaimable⟩ := of_decide_eq_true hclaim
  exact ⟨entry, Table.get_of_mem hmem, hqueue, hclaimable⟩

/-- A step of a claim that is alone, before it has come to the update. -/
structure Advances (now : Timestamp) (args : ClaimArgs) (queues : QueueTable) (jobs : JobTable) (pc : ClaimPc)
    (effect : Effect) (pc' : ClaimPc) : Prop where
  task_eq : effect.task = .claimLoop args pc'
  changes_eq : effect.changes = []
  queueWrites_eq : effect.queueWrites = []
  alone : pc'.Alone now args.queueNames queues jobs
  steps_lt : pc'.steps now args.queueNames queues jobs < pc.steps now args.queueNames queues jobs

variable {todo : List QueueName} {active : List ActiveQueue} {picked : List JobId}

/-- A visit of the next candidate finds it as the snapshot has it. -/
theorem claimScan_alone (h : Finds now queues jobs s t T) {a : ActiveQueue}
    (hpicks : Picks now args.queueNames queues jobs todo (a :: active) picked) :
    ∃ effect pc', claimScan s t T args jobs todo picked (a :: active) = some effect ∧
      Advances now args queues jobs (.claiming jobs todo (a :: active) picked) effect pc' := by
  obtain ⟨q, slots, candidates⟩ := a
  have hrest (b : ActiveQueue) (hb : b ∈ active) : b.Sound now jobs := hpicks.sound b (List.mem_cons_of_mem _ hb)
  have hquotas := hpicks.quotas
  rw [List.flatMap_cons] at hquotas
  cases slots with
  | zero =>
    refine ⟨_, _, rfl, rfl, rfl, rfl, ⟨rfl, hpicks.served, hrest, ?_⟩, ?_⟩
    · simpa [ActiveQueue.rest] using hquotas
    · simp [ClaimPc.steps]
  | succ slots =>
    cases candidates with
    | nil =>
      refine ⟨_, _, rfl, rfl, rfl, rfl, ⟨rfl, hpicks.served, hrest, ?_⟩, ?_⟩
      · simpa [ActiveQueue.rest] using hquotas
      · simp [ClaimPc.steps]
    | cons id rest =>
      have hsound := hpicks.sound _ List.mem_cons_self
      obtain ⟨entry, hget, hqueue, hclaimable⟩ := hsound id List.mem_cons_self
      have hscan : claimScan s t T args jobs todo picked (⟨q, slots + 1, id :: rest⟩ :: active) =
          some { task := .claimLoop args (.claiming jobs todo (⟨q, slots, rest⟩ :: active) (picked ++ [id]))
                 jobLock := some id } := by
        have hqueue : entry.row.queueName = q := hqueue
        simp only [claimScan, if_pos (h.alone.jobs id), h.view_eq, hget, h.now_eq, hqueue, hclaimable, and_self,
          if_true]
      refine ⟨_, _, hscan, rfl, rfl, rfl, ⟨rfl, hpicks.served, ?_, ?_⟩, ?_⟩
      · intro b hb
        rcases List.mem_cons.mp hb with rfl | hb
        · exact fun id' hid' => hsound id' (List.mem_cons_of_mem _ hid')
        · exact hrest b hb
      · simpa [ActiveQueue.rest] using hquotas
      · simp [ClaimPc.steps]

/-- The activation of a queue finds its limit and its candidates as the snapshot has them. -/
theorem claimActivate_alone (h : Finds now queues jobs s t T) {q : QueueName}
    (hpicks : Picks now args.queueNames queues jobs (q :: todo) active picked) :
    ∃ effect pc', claimStatement s t T args (.claiming jobs (q :: todo) active picked) = some effect ∧
      Advances now args queues jobs (.claiming jobs (q :: todo) active picked) effect pc' := by
  obtain ⟨hname, hserved⟩ := hpicks.served q List.mem_cons_self
  cases hget : queues.get q with
  | none => simp [hget] at hserved
  | some row =>
    have hpaused : row.paused = false := by simpa [hget] using hserved
    obtain rfl : row.name = q := Table.key_of_get hget
    have hactivate : claimStatement s t T args (.claiming jobs (row.name :: todo) active picked) =
        some { task := .claimLoop args (.claiming jobs todo (active ++ [activateQueue now jobs row]) picked)
               queueLock := some row.name } := by
      simp only [claimStatement, if_pos (And.intro (h.alone.queues row.name) (h.alone.shares row.name)),
        h.queueView_eq, hget, h.now_eq]
      simp [hpaused]
    refine ⟨_, _, hactivate, rfl, rfl, rfl, ⟨rfl, ?_, ?_, ?_⟩, ?_⟩
    · exact fun q' hq' => hpicks.served q' (List.mem_cons_of_mem _ hq')
    · intro a ha
      rcases List.mem_append.mp ha with hold | hnew
      · exact hpicks.sound a hold
      · obtain rfl := List.mem_singleton.mp hnew
        exact fun id hid => claimCandidates_sound hid
    · have hquota : (activateQueue now jobs row).rest = quota now queues jobs row.name := by
        simp only [ActiveQueue.rest, quota, activateQueue, freeSlots, hget]
      simpa [hquota] using hpicks.quotas
    · simp only [ClaimPc.steps, List.map_cons, List.sum_cons, List.map_append, List.sum_append, List.map_nil,
        List.sum_nil, activateQueue]
      omega

/-- Before the update, a claim that is alone never waits. -/
theorem claimStatement_alone (h : Finds now queues jobs s t T) {pc : ClaimPc}
    (hpc : pc.Alone now args.queueNames queues jobs) :
    (∃ picked, pc = .claiming jobs [] [] picked) ∨ ∃ effect pc', claimStatement s t T args pc = some effect ∧
      Advances now args queues jobs pc effect pc' := by
  cases pc with
  | lockingQueues todo =>
    right
    cases todo with
    | nil => exact ⟨_, _, rfl, rfl, rfl, rfl, trivial, by simp [ClaimPc.steps]⟩
    | cons q todo =>
      refine ⟨_, _, if_pos ⟨h.alone.queues q, h.alone.shares q⟩, rfl, rfl, rfl, trivial, ?_⟩
      simp only [ClaimPc.steps, List.length_cons]
      omega
  | queuesLocked =>
    right
    refine ⟨_, _, rfl, rfl, rfl, rfl, ⟨h.view_eq, ?_, by simp, ?_⟩, ?_⟩
    · rw [h.queueView_eq]
      exact fun q hq => mem_unpausedQueues.mp hq
    · rw [h.queueView_eq]
      exact .refl _
    · simp only [ClaimPc.steps, h.queueView_eq, List.map_nil, List.sum_nil]
      omega
  | claiming snapshot todo active picked =>
    obtain ⟨rfl, hpicks⟩ := hpc
    cases todo with
    | nil =>
      cases active with
      | nil => exact .inl ⟨picked, rfl⟩
      | cons a active => exact .inr (claimScan_alone h hpicks)
    | cons q todo => exact .inr (claimActivate_alone h hpicks)
  | _ => exact hpc.elim

/-! ## The update -/

/-- The candidates of a served queue are its eligible jobs, in order. -/
theorem claimCandidates_eq {names : List QueueName} {q : QueueName} (hq : ServesQueue names queues q) :
    claimCandidates now jobs q =
      ((inGroup JobEntry.queue q (claimableJobs now names queues jobs)).insertionSort ClaimOrder).map JobEntry.id := by
  have hfilter : jobs.rows.filter (fun entry => decide (entry.row.queueName = q ∧ Claimable now entry.row)) =
      inGroup JobEntry.queue q (claimableJobs now names queues jobs) := by
    rw [inGroup, claimableJobs, List.filter_filter]
    refine List.filter_congr fun entry _ => ?_
    rw [← Bool.decide_and, decide_eq_decide]
    constructor
    · rintro ⟨rfl, hclaim⟩
      exact ⟨rfl, hclaim, hq⟩
    · rintro ⟨hqueue, hclaim, -⟩
      exact ⟨hqueue, hclaim⟩
  rw [claimCandidates, hfilter]
  rfl

/-- When all queues have been visited, the picked rows are those the subqueries find. -/
theorem Picks.claimSelects {names : List QueueName} (h : Picks now names queues jobs [] [] picked) (batchSize : ℕ) :
    ClaimSelects now names batchSize queues jobs
      (((picked.filterMap jobs.get).insertionSort ClaimOrder).take batchSize) := by
  refine selects_of_flatMap (nodup_unpausedQueues names queues)
    (fun entry hentry => mem_unpausedQueues.mpr (mem_claimableJobs.mp hentry).2.2) ?_
  have hpicked : picked.Perm ((unpausedQueues names queues).flatMap (quota now queues jobs)) := by
    simpa using h.quotas
  refine (hpicked.filterMap jobs.get).trans (.of_eq ?_)
  rw [List.filterMap_flatMap]
  refine List.flatMap_congr fun q hq => ?_
  rw [quota, claimCandidates_eq (mem_unpausedQueues.mp hq), ← List.map_take]
  refine Table.filterMap_get_map_key fun entry hentry => ?_
  have hmem := (List.mem_insertionSort _).mp (List.mem_of_mem_take hentry)
  exact (mem_claimableJobs.mp (mem_inGroup.mp hmem).1).1

/-- The chosen jobs are distinct rows of the table that may be claimed. -/
theorem ClaimSelects.rows {names : List QueueName} {batchSize : ℕ} {claimed : List JobEntry}
    (h : ClaimSelects now names batchSize queues jobs claimed) :
    (claimed.map JobEntry.id).Nodup ∧ ∀ entry ∈ claimed, entry ∈ jobs.rows ∧ Claimable now entry.row := by
  obtain ⟨order, ranked, h⟩ := h
  have hchoice := h.greedyChoice ((List.Nodup.of_map _ jobs.nodup).filter _)
  have hmem (entry : JobEntry) (hentry : entry ∈ claimed) := mem_claimableJobs.mp (hchoice.subset hentry)
  refine ⟨?_, fun entry hentry => ⟨(hmem entry hentry).1, (hmem entry hentry).2.1⟩⟩
  refine hchoice.nodup.map_on fun a ha b hb hid => ?_
  have hget := Table.get_of_mem (hmem a ha).1
  rw [hid, Table.get_of_mem (hmem b hb).1] at hget
  exact (Option.some.inj hget).symm

/-- The update changes the chosen rows and no other. -/
theorem leases_applyChanges {claimed : List JobEntry} (hnodup : (claimed.map JobEntry.id).Nodup)
    (hrows : ∀ entry ∈ claimed, entry ∈ jobs.rows ∧ Claimable now entry.row) :
    Leases now args claimed jobs (jobDynamics.applyChanges jobs (claimed.map (claimChange t now args))) := by
  have hacts (c : Change LogEntry JobEntry) (hc : c ∈ claimed.map (claimChange t now args)) :
      jobDynamics.acts c.event (jobs.get (jobDynamics.target c.event)) c.version := by
    obtain ⟨entry, hentry, rfl⟩ := List.mem_map.mp hc
    obtain ⟨hmem, hclaim⟩ := hrows entry hentry
    change JobActs _ (jobs.get entry.id) _
    rw [Table.get_of_mem hmem]
    exact .claimed hclaim rfl
  have htargets : ((claimed.map (claimChange t now args)).map fun c => jobDynamics.target c.event).Nodup := by
    rw [List.map_map]
    exact hnodup
  constructor
  · intro entry hentry
    exact Dynamics.get_applyChanges_of_mem htargets hacts (List.mem_map_of_mem hentry)
  · intro id hid
    refine (Dynamics.consistent_of_nodup htargets hacts).get_of_untouched fun c hc heq => hid ?_
    obtain ⟨entry, hentry, rfl⟩ := List.mem_map.mp hc
    exact List.mem_map.mpr ⟨entry, hentry, heq⟩

/-- What a finished claim has done. -/
structure Claimed (now : Timestamp) (args : ClaimArgs) (queues : QueueTable) (jobs jobs' : JobTable)
    (rows : List JobRow) (claimed : List JobEntry) : Prop where
  selects : ClaimSelects now args.queueNames args.batchSize queues jobs claimed
  rows_eq : rows = claimed.map fun entry => claimUpdate now args.worker args.leaseSeconds entry.row
  leases : Leases now args claimed jobs jobs'

/-- The last step leases a choice of the query. -/
theorem claimStatement_update (h : Finds now queues jobs s t T)
    (hpicks : Picks now args.queueNames queues jobs [] [] picked) :
    ∃ effect rows claimed, claimStatement s t T args (.claiming jobs [] [] picked) = some effect ∧
      effect.task = .claimLoop args (.finished rows) ∧
      Claimed now args queues jobs ((T.after effect).view (s.perform t T effect)) rows claimed := by
  have hselects := hpicks.claimSelects args.batchSize
  generalize hclaimed : ((picked.filterMap jobs.get).insertionSort ClaimOrder).take args.batchSize = claimed at hselects
  obtain ⟨hnodup, hrows⟩ := hselects.rows
  have hentries : (claimedIds jobs picked args.batchSize).filterMap jobs.get = claimed := by
    have hids : claimedIds jobs picked args.batchSize = claimed.map JobEntry.id := by
      rw [← hnodup.dedup, ← hclaimed]
      rfl
    rw [hids]
    exact Table.filterMap_get_map_key fun entry hentry => (hrows entry hentry).1
  refine ⟨_, _, claimed, rfl, rfl, hselects, ?_, ?_⟩
  · rw [h.view_eq, h.now_eq, hentries]
  · rw [view_perform, h.view_eq, h.now_eq, hentries]
    exact leases_applyChanges hnodup hrows

/-! ## The run -/

/-- Where the transaction of a claim that is alone stands, from its first statement to its end. -/
inductive ClaimStands (now : Timestamp) (args : ClaimArgs) (queues : QueueTable) (jobs : JobTable) (s : State)
    (t : TxnId) : Prop
  | running (T : Txn) (pc : ClaimPc) (finds : Finds now queues jobs s t T) (task_eq : T.task = .claimLoop args pc)
      (alone : pc.Alone now args.queueNames queues jobs)
  | finished (T : Txn) (rows : List JobRow) (claimed : List JobEntry) (txn : s.txns t = some T)
      (task_eq : T.task = .claimLoop args (.finished rows))
      (result : Claimed now args queues jobs (T.view s) rows claimed)

/-- A step of a running claim goes on or comes to its end. -/
theorem ClaimStands.perform {pc : ClaimPc} (h : Finds now queues jobs s t T)
    (hpc : pc.Alone now args.queueNames queues jobs) (he : claimStatement s t T args pc = some effect) :
    ClaimStands now args queues jobs (s.perform t T effect) t := by
  rcases claimStatement_alone h hpc with ⟨picked, rfl⟩ | ⟨effect', pc', he', hadv⟩
  · obtain ⟨effect', rows, claimed, he', htask, hclaimed⟩ := claimStatement_update h hpc.2
    obtain rfl := Option.some.inj (he.symm.trans he')
    exact .finished _ rows claimed (by simp [State.perform]) htask hclaimed
  · obtain rfl := Option.some.inj (he.symm.trans he')
    exact .running _ pc' (h.perform hadv.changes_eq hadv.queueWrites_eq) hadv.task_eq hadv.alone

/-- Every step of the transaction keeps it where a claim that is alone stands. -/
theorem ClaimStands.step {a : Action} (h : ClaimStands now args queues jobs s t) (ha : OwnStep t s a)
    (hs : step s a = some s') : ClaimStands now args queues jobs s' t := by
  cases h with
  | running T pc hfinds htask hpc =>
    rcases ha with rfl | rfl
    · simp only [PgRelay.step, hfinds.txn, Option.bind_some, statement, htask] at hs
      obtain ⟨effect, he, rfl⟩ := Option.map_eq_some_iff.mp hs
      exact .perform hfinds hpc he
    · simp only [PgRelay.step, hfinds.txn, Option.bind_some, scanStatement, htask] at hs
      obtain ⟨effect, he, rfl⟩ := Option.map_eq_some_iff.mp hs
      split at he
      · rename_i args' snapshot todo active picked heq
        obtain ⟨rfl, rfl⟩ : args = args' ∧ pc = .claiming snapshot todo active picked := by simpa using heq
        obtain ⟨rfl, hpicks⟩ := hpc
        cases active with
        | nil => cases he
        | cons a active =>
          obtain ⟨effect', pc', he', hadv⟩ := claimScan_alone hfinds hpicks
          obtain rfl := Option.some.inj (he.symm.trans he')
          exact .running _ pc' (hfinds.perform hadv.changes_eq hadv.queueWrites_eq) hadv.task_eq hadv.alone
      · cases he
  | finished T rows claimed htxn htask =>
    rcases ha with rfl | rfl <;>
      simp [PgRelay.step, htxn, statement, scanStatement, htask, claimStatement] at hs

/-- A claim that is alone comes to its end. -/
theorem exists_finished {pc : ClaimPc} (h : Finds now queues jobs s t T) (htask : T.task = .claimLoop args pc)
    (hpc : pc.Alone now args.queueNames queues jobs) :
    ∃ s' T' rows, ReachesUnder step (OwnStep t) s s' ∧ s'.txns t = some T' ∧
      T'.task = .claimLoop args (.finished rows) := by
  -- Every step before the update makes `ClaimPc.steps` smaller.
  induction hn : pc.steps now args.queueNames queues jobs using Nat.strong_induction_on generalizing s T pc with
  | _ n ih =>
    have hstep {effect : Effect} (he : claimStatement s t T args pc = some effect) :
        StepUnder step (OwnStep t) s (s.perform t T effect) :=
      ⟨.advance t, .inl rfl, by simp [step, h.txn, statement, htask, he]⟩
    rcases claimStatement_alone h hpc with ⟨picked, rfl⟩ | ⟨effect, pc', he, hadv⟩
    · obtain ⟨effect, rows, claimed, he, htask', -⟩ := claimStatement_update h hpc.2
      exact ⟨_, T.after effect, rows, .single (hstep he), by simp [State.perform], htask'⟩
    · obtain ⟨s', T', rows, hrun, hdone⟩ := ih _ (hn ▸ hadv.steps_lt)
        (h.perform hadv.changes_eq hadv.queueWrites_eq) hadv.task_eq hadv.alone rfl
      exact ⟨s', T', rows, hrun.head (hstep he), hdone⟩

/-- `claim_jobs` alone with the database comes to its end. Whatever steps it has taken by then, it leases a
choice of the query, returns the leased rows and leaves every other row alone; and any choice of the query,
however it breaks ties, is the greedy schedule. -/
theorem claim_jobs_greedySchedule (htxn : s.txns t = some T)
    (htask : T.task = .claimLoop args (.lockingQueues (unpausedQueues args.queueNames (T.queueView s))))
    (halone : Alone s t) :
    (∃ s' T' rows, ReachesUnder step (OwnStep t) s s' ∧ s'.txns t = some T' ∧
      T'.task = .claimLoop args (.finished rows)) ∧
    (∀ s' T' rows, ReachesUnder step (OwnStep t) s s' → s'.txns t = some T' →
      T'.task = .claimLoop args (.finished rows) →
      ∃ claimed, ClaimSelects T.now args.queueNames args.batchSize (T.queueView s) (T.view s) claimed ∧
        GreedySchedule T.now args.queueNames args.batchSize (T.queueView s) (T.view s) claimed ∧
        rows = claimed.map (fun entry => claimUpdate T.now args.worker args.leaseSeconds entry.row) ∧
        Leases T.now args claimed (T.view s) (T'.view s')) ∧
    ∀ claimed, ClaimSelects T.now args.queueNames args.batchSize (T.queueView s) (T.view s) claimed →
      GreedySchedule T.now args.queueNames args.batchSize (T.queueView s) (T.view s) claimed := by
  have hfinds : Finds T.now (T.queueView s) (T.view s) s t T := ⟨htxn, rfl, rfl, rfl, halone⟩
  refine ⟨exists_finished hfinds htask trivial, fun s' T' rows hrun htxn' htask' => ?_,
    fun claimed h => h.greedySchedule⟩
  have hstands : ClaimStands T.now args (T.queueView s) (T.view s) s' t :=
    hrun.invariant (I := fun s => ClaimStands T.now args _ _ s t) (.running T _ hfinds htask trivial)
      fun s a s' h ha hs => h.step ha hs
  cases hstands with
  | running T'' pc hfinds' htask'' hpc =>
    obtain rfl := Option.some.inj (htxn'.symm.trans hfinds'.txn)
    obtain rfl : pc = .finished rows := by simpa [htask'] using htask''.symm
    exact hpc.elim
  | finished T'' rows' claimed htxn'' htask'' hclaimed =>
    obtain rfl := Option.some.inj (htxn'.symm.trans htxn'')
    obtain rfl : rows' = rows := by simpa [htask'] using htask''.symm
    exact ⟨claimed, hclaimed.selects, hclaimed.selects.greedySchedule, hclaimed.rows_eq, hclaimed.leases⟩

/-- Two jobs of a queue of limit 1 and one of another queue, and a claim that names the queues in its own
way. -/
def scheduledState : State :=
  { State.init 0 with
    queues := ⟨[⟨"mail", false, 1, 0, 0⟩, ⟨"sms", false, 3, 0, 0⟩, ⟨"fax", true, 3, 0, 0⟩], by decide⟩
    jobs := ⟨[⟨insertJob 0 0 (handlerJob "mail" 2), []⟩, ⟨insertJob 1 0 (handlerJob "mail" 2), []⟩,
      ⟨insertJob 2 0 (handlerJob "sms" 2), []⟩, ⟨insertJob 3 0 (handlerJob "fax" 2), []⟩], by decide⟩
    txns := fun t => if t = 0 then
      some ⟨0, .claimLoop ⟨"w", ["sms", "mail", "mail", "post", "fax"], 5, 60, 10⟩ (.lockingQueues ["mail", "sms"]),
        [], []⟩ else none }

/-- Two of three claimable jobs are claimed. -/
theorem claim_jobs_greedySchedule_scheduledState : ∃ s' T' args rows,
    ReachesUnder step (OwnStep 0) scheduledState s' ∧ s'.txns 0 = some T' ∧
      T'.task = .claimLoop args (.finished rows) ∧ rows.length = 2 := by
  have hqueues : unpausedQueues ["sms", "mail", "mail", "post", "fax"] scheduledState.queues = ["mail", "sms"] := by
    decide +kernel
  obtain ⟨⟨s', T', rows, hrun, htxn, htask⟩, hfinished, -⟩ :=
    claim_jobs_greedySchedule (s := scheduledState) (t := 0) rfl (by rw [← hqueues]; rfl)
      ⟨fun _ => .inl rfl, fun _ => .inl rfl, by simp [Unshared, scheduledState, State.init]⟩
  obtain ⟨claimed, -, hgreedy, hrows, -⟩ := hfinished s' T' rows hrun htxn htask
  refine ⟨s', T', _, rows, hrun, htxn, htask, ?_⟩
  rw [hrows, List.length_map, hgreedy.count]
  decide +kernel

end PgRelay
