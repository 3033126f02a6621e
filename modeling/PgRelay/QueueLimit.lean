import PgRelay.QueueLocks
import PgRelay.JobRows

/-!
# The concurrency limit of a queue

The lock statement and the claim statement of a claim both lock the unpaused queues, each on its own
snapshot, and only the second one counts. A queue that the first one has locked cannot gain leases
before the second one counts them. A queue that was created or resumed in between is locked by the
second statement only, after it has taken the snapshot it counts in: if it had to wait for another
claim, the leases of that claim are missing from the count. Without such leases every claim keeps to
the limit.
-/

namespace PgRelay

open RowStore

variable {s : State} {t : TxnId} {T : Txn} {effect : Effect}

/-- Without active queues no slots are open. -/
@[simp] theorem openSlots_nil (q : QueueName) : openSlots [] q = 0 := rfl

/-- A further active queue adds its slots. -/
@[simp] theorem openSlots_cons (a : ActiveQueue) (active : List ActiveQueue) (q : QueueName) :
    openSlots (a :: active) q = (if a.name = q then a.slots else 0) + openSlots active q := rfl

/-- The slots of two lists of queues add up. -/
theorem openSlots_append (active active' : List ActiveQueue) (q : QueueName) :
    openSlots (active ++ active') q = openSlots active q + openSlots active' q := by
  simp [openSlots]

/-- A picked job counts for its own queue. -/
theorem pickedIn_snoc {jobs : JobTable} {picked : List JobId} {id : JobId} {entry : JobEntry}
    (hget : jobs.get id = some entry) (q : QueueName) :
    pickedIn jobs (picked ++ [id]) q = pickedIn jobs picked q + if entry.row.queueName = q then 1 else 0 := by
  simp [pickedIn, hget]

/-! ## The claim statement -/

/-- Visiting a candidate fills a slot or leaves it. -/
theorem claimScan_queueEffectOk {args : ClaimArgs} {snapshot : JobTable} {todo : List QueueName}
    {picked : List JobId} {active : List ActiveQueue}
    (hslots : SlotsOk s t T snapshot todo active picked)
    (hold : T.queueWrites = []) (he : claimScan s t T args snapshot todo picked active = some effect) :
    QueueEffectOk s t T effect := by
  have hmono {effect' : Effect} {active' : List ActiveQueue} {picked' : List JobId}
      (htask : effect'.task = .claimLoop args (.claiming snapshot todo active' picked'))
      (hwrites : effect'.queueWrites = []) (hchanges : effect'.changes = []) (hlock : effect'.queueLock = none)
      (hle : ∀ q, pickedIn (T.view s) picked' q + openSlots active' q ≤
        pickedIn (T.view s) picked q + openSlots active q) : QueueEffectOk s t T effect' :=
    queueEffectOk_of_claim htask hwrites hold (by simp [hchanges]) (hslots.mono hchanges hlock hle)
  unfold claimScan at he
  split at he
  · cases he
  · cases he; exact hmono rfl rfl rfl rfl fun q => by simp
  · cases he; exact hmono rfl rfl rfl rfl fun q => by simp
  · rename_i q₀ slots id rest active'
    split_ifs at he
    · split at he
      · cases he; exact hmono rfl rfl rfl rfl fun q => by simp
      · rename_i entry hget
        split_ifs at he with hclaim
        · cases he
          apply hmono rfl rfl rfl rfl
          intro q
          rw [pickedIn_snoc hget, hclaim.1]
          simp only [openSlots_cons]
          split_ifs <;> omega
        · cases he; exact hmono rfl rfl rfl rfl fun q => by simp
    · cases he; exact hmono rfl rfl rfl rfl fun q => by simp

/-- The claimed rows of a queue are among its picked jobs. -/
theorem countP_claimed_le (jobs : JobTable) (picked : List JobId) (batchSize : ℕ) (q : QueueName) :
    ((claimedIds jobs picked batchSize).filterMap jobs.get).countP
      (fun entry => decide (entry.row.queueName = q)) ≤ pickedIn jobs picked q := by
  rw [List.countP_filterMap, pickedIn, List.countP_eq_length_filter, List.countP_eq_length_filter]
  have hnodup : (claimedIds jobs picked batchSize).Nodup := List.nodup_dedup _
  refine ((hnodup.filter _).subperm fun id hid => ?_).length_le
  obtain ⟨hmem, hq⟩ := List.mem_filter.mp hid
  refine List.mem_filter.mpr ⟨mem_picked_of_mem_claimedIds hmem, ?_⟩
  cases hget : jobs.get id with
  | none => simp [hget] at hq
  | some entry => simpa [hget] using hq

/-- A claim update adds at most the claimed rows of a queue to its leased jobs. -/
theorem leasedCount_claimed_le (jobs : JobTable) (now : Timestamp) (args : ClaimArgs)
    (entries : List JobEntry) (q : QueueName) :
    leasedCount (jobDynamics.applyChanges jobs (entries.map (claimChange t now args))) q ≤
      leasedCount jobs q + entries.countP fun entry => decide (entry.row.queueName = q) := by
  refine (Dynamics.count_applyChanges_le _ _ _).trans (Nat.add_le_add_left (le_of_eq ?_) _)
  rw [List.countP_map]
  apply List.countP_congr
  intro entry _
  simp [claimChange, claimUpdate]

/-- The last step of the claim keeps to the limits of the queues. -/
theorem claimUpdate_queueEffectOk {args : ClaimArgs} {snapshot : JobTable} {picked : List JobId}
    (hslots : SlotsOk s t T snapshot [] [] picked) (hold : T.queueWrites = [])
    {entries : List JobEntry}
    (hentries : entries = (claimedIds (T.view s) picked args.batchSize).filterMap (T.view s).get) :
    QueueEffectOk s t T
      { task := .claimLoop args (.finished
          (entries.map fun entry => claimUpdate T.now args.worker args.leaseSeconds entry.row))
        changes := entries.map (claimChange t T.now args) } := by
  have htaken (entry : JobEntry) (hentry : entry ∈ entries) :
      s.queueLocks entry.row.queueName = some t ∧ Counted s T snapshot entry.row.queueName ∧
        ∃ row, s.queues.get entry.row.queueName = some row ∧
          (pickedIn (T.view s) picked entry.row.queueName + leasedCount snapshot entry.row.queueName : ℕ) ≤
            row.concurrencyLimit := by
    have hpos : 0 < pickedIn (T.view s) picked entry.row.queueName := by
      have hle := countP_claimed_le (T.view s) picked args.batchSize entry.row.queueName
      rw [← hentries] at hle
      exact lt_of_lt_of_le (List.countP_pos_iff.mpr ⟨entry, hentry, decide_eq_true rfl⟩) hle
    simpa using (hslots.taken _ (by simpa using hpos)).2
  refine queueEffectOk_of_claim rfl rfl hold (fun c hc x leaseSeconds hevent => ?_) fun row hrow => ?_
  · obtain ⟨entry, hentry, rfl⟩ := List.mem_map.mp hc
    obtain ⟨rfl, -⟩ : _ ∧ _ := by simpa [claimChange] using hevent
    exact (htaken entry hentry).1
  · obtain ⟨entry, hentry, rfl⟩ := List.mem_map.mp hrow
    obtain ⟨hlock, hcounted, row, hrow, hlimit⟩ := htaken entry hentry
    refine ⟨hlock, row, hrow, ?_⟩
    have hadded := leasedCount_claimed_le (t := t) (T.view s) T.now args entries entry.row.queueName
    have hclaimed := countP_claimed_le (T.view s) picked args.batchSize entry.row.queueName
    rw [← hentries] at hclaimed
    rw [view_perform]
    unfold Counted at hcounted
    change (leasedCount (jobDynamics.applyChanges (T.view s) (entries.map (claimChange t T.now args)))
      entry.row.queueName : Int) ≤ _
    omega

/-- The queues a statement visits are distinct. -/
theorem nodup_unpausedQueues (names : List QueueName) (queues : QueueTable) :
    (unpausedQueues names queues).Nodup := by
  unfold unpausedQueues
  rw [(List.perm_insertionSort _ _).nodup_iff]
  exact (List.filter_sublist.map _).nodup queues.nodup

/-- The claim statement counts the leased jobs a queue has when it gets the lock of the queue. -/
def countsCurrentLeases (s : State) : Action → Bool
  | .advance t => (s.txns t).all fun T =>
    match T.task with
    | .claimLoop _ (.claiming snapshot (q :: _) _ _) =>
      s.queueLocks q = some t || leasedCount (T.view s) q ≤ leasedCount snapshot q
    | _ => true
  | _ => true

/-- Every step of a claim round that counts the current leases. -/
theorem claimStatement_queueEffectOk {args : ClaimArgs} {pc : ClaimPc} (h : QueueOk s t T)
    (hpc : T.task = .claimLoop args pc) (hT : s.txns t = some T)
    (hcounts : countsCurrentLeases s (.advance t) = true)
    (he : claimStatement s t T args pc = some effect) : QueueEffectOk s t T effect := by
  obtain ⟨hold, hqueues⟩ := h.claim args pc hpc
  have hquiet {effect' : Effect} {pc' : ClaimPc} (htask : effect'.task = .claimLoop args pc')
      (hwrites : effect'.queueWrites = [])
      (hchanges : ∀ c ∈ effect'.changes, ∀ x leaseSeconds, c.event.event ≠ .claimed x leaseSeconds)
      (hqueues' : pc'.QueuesOk (s.perform t T effect') t (T.after effect')) : QueueEffectOk s t T effect' :=
    queueEffectOk_of_claim htask hwrites hold
      (fun c hc x leaseSeconds hevent => absurd hevent (hchanges c hc x leaseSeconds)) hqueues'
  have hview : T.queueView s = s.queues := by rw [Txn.queueView, hold]; rfl
  unfold claimStatement at he
  split at he
  · cases he; exact hquiet rfl rfl (by simp) trivial
  · cases he; exact hquiet rfl rfl (by simp) trivial
  · cases he; exact hquiet rfl rfl (by simp) trivial
  · split_ifs at he
    · split at he
      · cases he; exact hquiet rfl rfl (by simp) trivial
      · split_ifs at he
        · cases he; exact hquiet rfl rfl (by simp) trivial
        · cases he; exact hquiet rfl rfl (by simp) trivial
    · cases he; exact hquiet rfl rfl (by simp) trivial
  · split_ifs at he
    cases he; exact hquiet rfl rfl (by simp) trivial
  · cases he; exact hquiet rfl rfl (by simp) trivial
  · split_ifs at he
    cases he; exact hquiet rfl rfl (by simp) trivial
  · cases he
    refine hquiet rfl rfl (by simp) ⟨fun q _ _ => ?_, nodup_unpausedQueues _ _, fun q hpos => ?_⟩
    · rw [Counted, view_perform_of_nil rfl]
    · simp [pickedIn] at hpos
  · -- The next queue: it was locked before the snapshot, or its leases have not grown since.
    rename_i snapshot q todo active picked
    have hslots : SlotsOk s t T snapshot (q :: todo) active picked := hqueues
    have hcounted : Counted s T snapshot q := by
      simp only [countsCurrentLeases, hT, hpc, Option.all_some, Bool.or_eq_true, decide_eq_true_eq] at hcounts
      rcases hcounts with hheld | hcount
      · exact hslots.counted q List.mem_cons_self hheld
      · exact hcount
    have hnone : openSlots active q = 0 := by
      by_contra hpos
      exact (hslots.taken q (by omega)).1 List.mem_cons_self
    split_ifs at he
    split at he
    · cases he
      exact hquiet rfl rfl (by simp) (hslots.activate rfl (Or.inl rfl) (fun _ _ => rfl) (by simp [hnone]))
    · rename_i row hrow
      split_ifs at he
      · cases he
        exact hquiet rfl rfl (by simp) (hslots.activate rfl (Or.inr rfl) (fun _ _ => rfl) (by simp [hnone]))
      · cases he
        rw [hview] at hrow
        have hname : row.name = q := Table.key_of_get hrow
        refine hquiet rfl rfl (by simp) (hslots.activate rfl (Or.inr rfl) (fun q' hne => ?_) fun hpos => ?_)
        · simp [openSlots_append, activateQueue, hname, Ne.symm hne]
        · refine ⟨rfl, hcounted, row, hrow, ?_⟩
          simp only [openSlots_append, hnone, openSlots_cons, activateQueue, hname, if_true, openSlots_nil] at hpos ⊢
          omega
  · cases he
    exact claimUpdate_queueEffectOk hqueues hold rfl
  · exact claimScan_queueEffectOk hqueues hold he
  · cases he

/-! ## The other steps -/

/-- Only a queue that is created or updated is written, and then it is locked. -/
theorem upsertQueue_queueWrites {name : QueueName} {next : Task}
    (he : upsertQueue s t T name next = some effect) :
    ∀ w ∈ effect.queueWrites, effect.queueLock = some w.name := by
  obtain ⟨-, rfl⟩ | ⟨-, -, rfl⟩ := upsertQueue_cases he
  · simp
  · simp [newQueue]

/-- The transaction is no claim round. -/
def Task.IsOther (task : Task) : Prop := ∀ args pc, task ≠ .claimLoop args pc

/-- A step of another transaction: it claims nothing and writes queues under their locks. -/
theorem queueEffectOk_of_other (hsteps : Steps s t T effect) (hw : T.task.Writes t T.events)
    (htask : effect.task.IsOther) (hwrites : ∀ w ∈ effect.queueWrites, effect.queueLock = some w.name) :
    QueueEffectOk s t T effect where
  writes := hwrites
  claims c hc x leaseSeconds hevent := by
    have hmem : .claimed x leaseSeconds ∈ (T.after effect).events := by
      rw [events_after, ← hevent]
      exact List.mem_append_right _ (List.mem_map_of_mem hc)
    rcases (hsteps.writes hw).mem_cases hmem with ⟨args, pc, hclaim, -⟩ | ⟨y, op, -, heq, -⟩ | ⟨id, heq⟩ |
      ⟨id, job, heq⟩ | ⟨id, heq⟩ | ⟨id, args, heq⟩
    · exact absurd hclaim (htask args pc)
    · cases op <;> cases heq
    all_goals cases heq
  claim args pc hpc := absurd hpc (htask args pc)

/-- The step of another transaction stays one, and writes queues under their locks. -/
def QueueWritesLocked (effect : Effect) : Prop :=
  effect.task.IsOther ∧ ∀ w ∈ effect.queueWrites, effect.queueLock = some w.name

/-- A call writes no queue. -/
theorem callStatement_queueWrites {x : Execution} {op : CallOp} {pc : CallPc}
    (he : callStatement s t T x op pc = some effect) : QueueWritesLocked effect := by
  obtain ⟨pc', -, rfl⟩ | ⟨entry, -, -, -, -, rfl⟩ := callStatement_cases he <;>
    simp [QueueWritesLocked, Task.IsOther]

/-- A cancellation writes no queue. -/
theorem cancelStatement_queueWrites {id : JobId} {pc : CancelPc}
    (he : cancelStatement s t T id pc = some effect) : QueueWritesLocked effect := by
  obtain ⟨pc', -, rfl⟩ | ⟨entry, -, -, -, -, rfl⟩ := cancelStatement_cases he <;>
    simp [QueueWritesLocked, Task.IsOther]

/-- The insertion of a job writes no queue. -/
theorem insertNew_queueWrites {job : NewJob} (he : insertNew s t T job = some effect) :
    QueueWritesLocked effect := by
  obtain ⟨-, -, rfl⟩ := insertNew_cases he
  simp [QueueWritesLocked, Task.IsOther]

/-- A step of an insertion writes at most the queue that it creates. -/
theorem insertStatement_queueWrites {job : NewJob} {pc : InsertPc}
    (he : insertStatement s t T job pc = some effect) : QueueWritesLocked effect := by
  rcases insertStatement_cases he with he | he | ⟨pc', keyLock, queueShare, rfl⟩
  · exact ⟨by simp [(upsertQueue_changes he).1, Task.IsOther], upsertQueue_queueWrites he⟩
  · exact insertNew_queueWrites he
  · simp [QueueWritesLocked, Task.IsOther]

/-- A replay writes no queue before its insertion. -/
theorem replayStatement_queueWrites {id : JobId} {force : Bool} {pc : ReplayPc}
    (he : replayStatement s T id force pc = some effect) : QueueWritesLocked effect := by
  obtain ⟨-, ⟨pc', -, rfl⟩ | ⟨source, -, rfl⟩⟩ := replayStatement_cases he <;>
    simp [QueueWritesLocked, Task.IsOther]

/-- An update of a queue locks the row that it writes. -/
theorem queueStatement_queueWrites {args : QueueArgs} {pc : QueuePc}
    (he : queueStatement s t T args pc = some effect) : QueueWritesLocked effect := by
  obtain ⟨-, hupsert⟩ | ⟨pc', -, rfl⟩ | ⟨row, -, -, hrow, -, rfl⟩ := queueStatement_cases he
  · exact ⟨by simp [(upsertQueue_changes hupsert).1, Task.IsOther], upsertQueue_queueWrites hupsert⟩
  · simp [QueueWritesLocked, Task.IsOther]
  · simp [QueueWritesLocked, Task.IsOther, (Table.key_of_get hrow : row.name = args.name)]

/-- A purge writes no queue. -/
theorem purgeStatement_queueWrites {args : PurgeArgs} {pc : PurgePc}
    (he : purgeStatement s t T args pc = some effect) : QueueWritesLocked effect := by
  unfold purgeStatement at he
  split at he
  · cases he; simp [QueueWritesLocked, Task.IsOther]
  · cases he; simp [QueueWritesLocked, Task.IsOther]
  · split_ifs at he
    split at he <;> cases he <;> simp [QueueWritesLocked, Task.IsOther]
  · cases he; simp [QueueWritesLocked, Task.IsOther]
  · split_ifs at he
    split at he <;> cases he <;> simp [QueueWritesLocked, Task.IsOther]
  · cases he

/-- Every step of every statement, where a claim counts the current leases. -/
theorem statement_queueEffectOk (h : QueueOk s t T) (hw : T.task.Writes t T.events)
    (hT : s.txns t = some T)
    (hcounts : countsCurrentLeases s (.advance t) = true) (he : statement s t T = some effect) :
    QueueEffectOk s t T effect := by
  have hother (hlocked : QueueWritesLocked effect) : QueueEffectOk s t T effect :=
    queueEffectOk_of_other (Or.inl he) hw hlocked.1 hlocked.2
  unfold statement at he
  split at he
  · exact claimStatement_queueEffectOk h ‹_› hT hcounts he
  · exact hother (callStatement_queueWrites he)
  · exact hother (cancelStatement_queueWrites he)
  · exact hother (insertStatement_queueWrites he)
  · exact hother (replayStatement_queueWrites he)
  · exact hother (queueStatement_queueWrites he)
  · exact hother (purgeStatement_queueWrites he)

/-- A scan picks jobs only into open slots. -/
theorem scanStatement_queueEffectOk (h : QueueOk s t T) (he : scanStatement s t T = some effect) :
    QueueEffectOk s t T effect := by
  unfold scanStatement at he
  split at he
  · rename_i hpc
    obtain ⟨hold, hqueues⟩ := h.claim _ _ hpc
    exact claimScan_queueEffectOk hqueues hold he
  · cases he

/-- A further enqueue of a caller picks no jobs. -/
theorem enqueueMore_queueEffectOk {job : NewJob} (hw : T.task.Writes t T.events)
    (he : enqueueMore T job = some effect) : QueueEffectOk s t T effect := by
  refine queueEffectOk_of_other (Or.inr (Or.inr ⟨job, he⟩)) hw ?_ ?_
  all_goals
    obtain ⟨done, pc, -, -, -, rfl⟩ := enqueueMore_cases he
    simp [Task.IsOther]

/-! ## All runs in which claims count the current leases -/

/-- The transactions of a state are in order with the queues. -/
def QueuesInOrder (s : State) : Prop := ∀ t T, s.txns t = some T → QueueOk s t T

/-- A step of one transaction leaves the others in order. -/
theorem QueuesInOrder.perform (h : QueuesInOrder s) (hinv : Inv s) (hT : s.txns t = some T)
    (he : EffectOk s t T effect) (hq : QueueEffectOk s t T effect) :
    QueuesInOrder (s.perform t T effect) := by
  intro t' T' hT'
  by_cases hne : t' = t
  · subst hne
    obtain rfl : T.after effect = T' := by simpa [State.perform] using hT'
    exact (h t' T hT).perform hq
  · have hopen : s.txns t' = some T' := by simpa [State.perform, hne] using hT'
    exact (h t' T' hopen).frame (hinv.txn t' T' hopen)
      (queueFrame_of_eq (fun q => takeLock_of_other he.queueLock hne q) rfl rfl) fun _ _ => rfl

/-- A commit leaves the others in order. -/
theorem QueuesInOrder.commit (h : QueuesInOrder s) (hinv : Inv s) (hT : s.txns t = some T) :
    QueuesInOrder (s.commit t T) := by
  intro t' T' hT'
  obtain ⟨hne, hopen⟩ := txns_close (t := t) hT'
  have htxn := hinv.txn t T hT
  have hother := hinv.txn t' T' hopen
  refine (h t' T' hopen).frame hother ?_ fun id hid => ?_
  · exact QueueOk.frame_commit hother ((hinv.commit hT).txn t' T' hT') htxn (h t T hT) hne
  · exact hother.view_congr (htxn.frame_commit hne) (htxn.view_of_other hne hid)

/-- A claim round begins with the recovery. -/
theorem request_claim_begin {request : Request} {args : ClaimArgs} {pc : ClaimPc}
    (h : request.task s = some (.claimLoop args pc)) : pc = .begin :=
  Request.atBegin h

/-- Every action that counts the current leases leaves the transactions in order. -/
theorem QueuesInOrder.step {s' : State} {a : Action} (h : QueuesInOrder s) (hreach : Reachable s)
    (hcounts : countsCurrentLeases s a = true) (hs : step s a = some s') : QueuesInOrder s' := by
  have hinv := hreach.inv
  rcases step_cases hs with ⟨elapsed, -, rfl⟩ | ⟨request, task, -, hr, rfl⟩ |
    ⟨t, T, effect, hT, he, rfl⟩ | ⟨t, T, -, hT, -, rfl⟩ | ⟨t, T, -, -, rfl⟩
  · intro t T hT
    exact (h t T hT).frame (hinv.txn t T hT) (queueFrame_of_eq (fun _ => Iff.rfl) rfl rfl) fun _ _ => rfl
  · intro t T hT
    by_cases hne : t = s.nextTxn
    · obtain rfl : (⟨s.clock, task, [], []⟩ : Txn) = T := by simpa [State.open, hne] using hT
      refine ⟨by simp, by simp, fun args pc hpc => ⟨rfl, ?_⟩⟩
      obtain rfl : pc = .begin := request_claim_begin (hr.trans (congrArg some hpc))
      trivial
    · have hopen : s.txns t = some T := by simpa [State.open, hne] using hT
      exact (h t T hopen).frame (hinv.txn t T hopen) (queueFrame_of_eq (fun _ => Iff.rfl) rfl rfl) fun _ _ => rfl
  · have hw := hreach.writes hT
    have htxn := hinv.txn t T hT
    rcases he with ⟨rfl, he⟩ | ⟨-, he⟩ | ⟨job, -, he⟩
    · exact h.perform hinv hT (statement_ok hinv htxn he) (statement_queueEffectOk (h t T hT) hw hT hcounts he)
    · exact h.perform hinv hT (scanStatement_ok hinv htxn he) (scanStatement_queueEffectOk (h t T hT) he)
    · exact h.perform hinv hT (enqueueMore_ok htxn he) (enqueueMore_queueEffectOk hw he)
  · exact h.commit hinv hT
  · intro t' T' hT'
    obtain ⟨hne, hopen⟩ := txns_close hT'
    exact (h t' T' hopen).frame (hinv.txn t' T' hopen)
      (queueFrame_of_eq (fun q => releaseLocks_eq_some.trans (and_iff_left hne)) rfl rfl) fun _ _ => rfl

/-- The rows an open claim has returned. -/
def Task.returned : Task → List JobRow
  | .claimLoop _ pc => pc.returned
  | _ => []

/-- Whenever a claim that has leased a job of a queue commits, the leased jobs of the queue are then
within its limit. -/
def ClaimsWithinLimits (s : State) : Prop :=
  ∀ t T, s.txns t = some T → ∀ row ∈ T.task.returned,
    ∃ queue, (s.commit t T).queues.get row.queueName = some queue ∧
      leasedCount (s.commit t T).jobs row.queueName ≤ queue.concurrencyLimit

/-- In every run in which the claim statements count the leases a queue has when they lock it, every
claim keeps to the limits. -/
theorem claims_within_limits {clock : Timestamp}
    (h : ReachesUnder step (fun s a => countsCurrentLeases s a = true) (State.init clock) s) :
    ClaimsWithinLimits s := by
  have hinv : Reachable s ∧ QueuesInOrder s := by
    refine h.invariant (I := fun s => Reachable s ∧ QueuesInOrder s)
      ⟨⟨clock, .refl⟩, fun _ _ hT => by cases hT⟩ ?_
    rintro s a s' ⟨⟨start, hrun⟩, horder⟩ hcounts hs
    exact ⟨⟨start, hrun.tail ⟨a, trivial, hs⟩⟩, horder.step ⟨start, hrun⟩ hcounts hs⟩
  intro t T hT row hrow
  obtain ⟨args, rows, htask, hmem⟩ : ∃ args rows, T.task = .claimLoop args (.finished rows) ∧ row ∈ rows := by
    unfold Task.returned ClaimPc.returned at hrow
    split at hrow
    · split at hrow
      · exact ⟨_, _, ‹_›, hrow⟩
      · cases hrow
    · cases hrow
  obtain ⟨hwrites, hrows⟩ := (hinv.2 t T hT).claim args _ htask
  obtain ⟨-, queue, hqueue, hle⟩ := hrows row hmem
  refine ⟨queue, ?_, hle⟩
  change (T.queueView s).get row.queueName = some queue
  rw [Txn.queueView, hwrites]
  exact hqueue

/-- A queue of limit 3 with four jobs. One worker claims two of them, and another one, which has waited for the
queue since before that, claims what the limit still admits. -/
def claimingRun : List Action :=
  transaction 0 (.updateQueue ⟨"mail", none, some 3⟩) 3 ++
    (List.range 4).flatMap (fun n => transaction (n + 1) (.enqueue (handlerJob "mail" 2)) 5) ++
    .begin (.claimLoop ⟨"v", ["mail"], 2, 60, 10⟩) :: List.replicate 4 (.advance 5) ++
    .begin (.claimLoop ⟨"w", ["mail"], 5, 60, 10⟩) :: List.replicate 3 (.advance 6) ++
    List.replicate 8 (.advance 5) ++ .commit 5 :: List.replicate 7 (.advance 6)

/-- Two claims at work on a queue of limit 3, which has a leased job already. -/
theorem claims_within_limits_claimingRun : ∃ s,
    runChecked step countsCurrentLeases (State.init 0) claimingRun = some s ∧ ClaimsWithinLimits s ∧
      leasedCount s.jobs "mail" = 2 ∧ ∃ T, s.txns 6 = some T ∧ T.task.returned.length = 1 := by
  have hrun : (runChecked step countsCurrentLeases (State.init 0) claimingRun).map
      (fun s => (leasedCount s.jobs "mail", (s.txns 6).map fun T => T.task.returned.length)) = some (2, some 1) := by
    decide +kernel
  obtain ⟨s, hs, hend⟩ := Option.map_eq_some_iff.mp hrun
  obtain ⟨hleased, hreturned⟩ := Prod.mk.inj hend
  obtain ⟨T, hT, hlength⟩ := Option.map_eq_some_iff.mp hreturned
  exact ⟨s, hs, claims_within_limits (reachesUnder_of_runChecked (fun _ _ h => h) hs), hleased, T, hT, hlength⟩

/-- A paused queue of limit 1 is resumed between the two statements of one claim, and another claim
leases a job of it while the first one waits for the lock. -/
def oversubscribedRun : List Action :=
  transaction 0 (.updateQueue ⟨"mail", some true, some 1⟩) 3 ++
    transaction 1 (.enqueue (handlerJob "mail" 2)) 5 ++ transaction 2 (.enqueue (handlerJob "mail" 2)) 5 ++
    .begin (.claimLoop ⟨"v", ["mail"], 1, 60, 10⟩) :: List.replicate 4 (.advance 3) ++
    transaction 4 (.updateQueue ⟨"mail", some false, none⟩) 3 ++
    .begin (.claimLoop ⟨"w", ["mail"], 1, 60, 10⟩) :: List.replicate 10 (.advance 5) ++
    [.advance 3, .commit 5] ++ List.replicate 5 (.advance 3)

/-- A queue of limit 1 is resumed between the statements of one claim while another one leases a job of it. -/
theorem not_claimsWithinLimits_oversubscribedRun : ¬ ∀ s, Reachable s → ClaimsWithinLimits s := by
  intro hall
  have hrun : ((stateAfter 0 oversubscribedRun).txns 3).map (fun T => (T.task.returned.map JobRow.queueName,
      leasedCount (T.view (stateAfter 0 oversubscribedRun)) "mail",
      ((T.queueView (stateAfter 0 oversubscribedRun)).get "mail").map QueueRow.concurrencyLimit)) =
      some (["mail"], 2, some 1) := by
    decide +kernel
  obtain ⟨T, hT, hcolumns⟩ := Option.map_eq_some_iff.mp hrun
  simp only [Prod.mk.injEq] at hcolumns
  obtain ⟨hreturned, hleased, hlimit⟩ := hcolumns
  obtain ⟨row, hrow, hname⟩ : ∃ row ∈ T.task.returned, row.queueName = "mail" := by
    have hmem : "mail" ∈ T.task.returned.map JobRow.queueName := by simp [hreturned]
    simpa using hmem
  obtain ⟨queue, hqueue, hle⟩ := hall _ (reachable_stateAfter 0 oversubscribedRun) 3 T hT row hrow
  rw [hname] at hqueue hle
  change (T.queueView _).get "mail" = some queue at hqueue
  change (leasedCount (T.view _) "mail" : Int) ≤ _ at hle
  rw [hqueue] at hlimit
  rw [hleased] at hle
  simp only [Option.map_some, Option.some.injEq] at hlimit
  omega

end PgRelay
