import PgRelay.QueueLimit

/-!
# What the others leave to a transaction

A rule for invariants that tie an open transaction to the tables and the locks it holds. The other
transactions neither take nor release its locks, they leave the rows under these locks as they are,
and they delete no queue. So an invariant that says no more than this of the state is kept by every
step of the others, and only the transaction's own steps are left to look at.
-/

namespace PgRelay

open RowStore

variable {s s' : State} {t : TxnId} {T : Txn} {effect : Effect}

/-! ## The steps of a claim round -/

/-- The recovery, which precedes the claim in its session. -/
def ClaimPc.isRecovery : ClaimPc → Bool
  | .begin | .recovering _ _ | .recovered => true
  | _ => false

/-- What the steps of a claim round do to the queue locks and the picked jobs. -/
inductive ClaimMove (s : State) (t : TxnId) (T : Txn) (args : ClaimArgs) : ClaimPc → Effect → Prop
  | recover {pc pc' effect} (hpc : pc.isRecovery = true) (hpc' : pc'.isRecovery = true)
      (htask : effect.task = .claimLoop args pc') (hlock : effect.queueLock = none)
      (hwrites : effect.queueWrites = [])
      (hchanges : ∀ c ∈ effect.changes, ∃ id, c.event.event = .recovered id) (hkey : effect.keyLock = none) :
      ClaimMove s t T args pc effect
  | beginLocking : ClaimMove s t T args .recovered
      { task := .claimLoop args (.lockingQueues (unpausedQueues args.queueNames (T.queueView s))) }
  | lock {q todo} (hfree : Free s.queueLocks q t) : ClaimMove s t T args (.lockingQueues (q :: todo))
      { task := .claimLoop args (.lockingQueues todo), queueLock := some q }
  | endLocking : ClaimMove s t T args (.lockingQueues []) { task := .claimLoop args .queuesLocked }
  | beginClaiming : ClaimMove s t T args .queuesLocked { task := .claimLoop args (.claiming (T.view s)
      (unpausedQueues args.queueNames (T.queueView s)) [] []) }
  | skipQueue {snapshot q todo active picked lock} (hlock : ∀ q', lock = some q' → q' = q)
      (hknown : lock = none ∨ (T.queueView s).get q ≠ none) :
      ClaimMove s t T args (.claiming snapshot (q :: todo) active picked)
        { task := .claimLoop args (.claiming snapshot todo active picked), queueLock := lock }
  | activate {snapshot q todo active picked row} (hrow : (T.queueView s).get q = some row)
      (hpaused : row.paused = false) : ClaimMove s t T args (.claiming snapshot (q :: todo) active picked)
        { task := .claimLoop args (.claiming snapshot todo (active ++ [activateQueue T.now snapshot row]) picked)
          queueLock := some q }
  | skipJob {snapshot todo active active' picked} (hactive : ∀ a ∈ active', ∃ b ∈ active, a.name = b.name) :
      ClaimMove s t T args (.claiming snapshot todo active picked)
        { task := .claimLoop args (.claiming snapshot todo active' picked) }
  | pick {snapshot todo active active' picked id entry} (hactive : ∀ a ∈ active', ∃ b ∈ active, a.name = b.name)
      (hget : (T.view s).get id = some entry) (hqueue : ∃ b ∈ active, b.name = entry.row.queueName) :
      ClaimMove s t T args (.claiming snapshot todo active picked)
        { task := .claimLoop args (.claiming snapshot todo active' (picked ++ [id])), jobLock := some id }
  | claim {snapshot picked entries}
      (hentries : entries = (claimedIds (T.view s) picked args.batchSize).filterMap (T.view s).get) :
      ClaimMove s t T args (.claiming snapshot [] [] picked)
        { task := .claimLoop args (.finished
            (entries.map fun entry => claimUpdate T.now args.worker args.leaseSeconds entry.row))
          changes := entries.map (claimChange t T.now args) }

/-- Every step of a scan is a move of its claim round. -/
theorem claimScan_moves {args : ClaimArgs} {snapshot : JobTable} {todo : List QueueName}
    {picked : List JobId} {active : List ActiveQueue}
    (he : claimScan s t T args snapshot todo picked active = some effect) :
    ClaimMove s t T args (.claiming snapshot todo active picked) effect := by
  unfold claimScan at he
  split at he
  · cases he
  · cases he; exact .skipJob fun a ha => ⟨a, List.mem_cons_of_mem _ ha, rfl⟩
  · cases he; exact .skipJob fun a ha => ⟨a, List.mem_cons_of_mem _ ha, rfl⟩
  · rename_i q slots id rest active
    have hactive {slots' : ℕ} (a : ActiveQueue) (ha : a ∈ ⟨q, slots', rest⟩ :: active) :
        ∃ b ∈ ⟨q, slots + 1, id :: rest⟩ :: active, a.name = b.name := by
      rcases List.mem_cons.mp ha with rfl | ha
      · exact ⟨_, List.mem_cons_self, rfl⟩
      · exact ⟨a, List.mem_cons_of_mem _ ha, rfl⟩
    split_ifs at he
    · split at he
      · cases he; exact .skipJob hactive
      · rename_i entry hget
        split_ifs at he with hclaim
        · cases he; exact .pick hactive hget ⟨_, List.mem_cons_self, hclaim.1.symm⟩
        · cases he; exact .skipJob hactive
    · cases he; exact .skipJob hactive

/-- Every statement of a claim round is one of its moves. -/
theorem claimStatement_moves {args : ClaimArgs} {pc : ClaimPc}
    (he : claimStatement s t T args pc = some effect) : ClaimMove s t T args pc effect := by
  unfold claimStatement at he
  split at he
  · cases he; exact .recover rfl rfl rfl rfl rfl (by simp) rfl
  · cases he; exact .recover rfl rfl rfl rfl rfl (by simp) rfl
  · cases he; exact .recover rfl rfl rfl rfl rfl (by simp) rfl
  · split_ifs at he
    · split at he
      · cases he; exact .recover rfl rfl rfl rfl rfl (by simp) rfl
      · split_ifs at he
        · cases he; exact .recover rfl rfl rfl rfl rfl (by simp) rfl
        · cases he; exact .recover rfl rfl rfl rfl rfl (by simp) rfl
    · cases he; exact .recover rfl rfl rfl rfl rfl (by simp) rfl
  · split_ifs at he
    cases he; exact .beginLocking
  · cases he; exact .endLocking
  · split_ifs at he with hfree
    cases he; exact .lock hfree.1
  · cases he; exact .beginClaiming
  · split_ifs at he
    split at he
    · cases he; exact .skipQueue (by simp) (.inl rfl)
    · rename_i row hrow
      split_ifs at he with hpaused
      · cases he; exact .skipQueue (fun q' hq' => (Option.some.inj hq').symm) (.inr (by simp [hrow]))
      · cases he; exact .activate hrow (Bool.eq_false_of_not_eq_true hpaused)
  · cases he; exact .claim rfl
  · exact claimScan_moves he
  · cases he

/-- A claim writes no queue. -/
theorem ClaimMove.queueWrites {args : ClaimArgs} {pc : ClaimPc} (h : ClaimMove s t T args pc effect) :
    effect.queueWrites = [] := by
  cases h with
  | recover _ _ _ _ hwrites => exact hwrites
  | _ => rfl

/-- Every step of a claim round is one of these. -/
theorem Steps.claimMove (h : Steps s t T effect) {args : ClaimArgs} {pc : ClaimPc}
    (htask : T.task = .claimLoop args pc) : ClaimMove s t T args pc effect := by
  rcases h with he | he | ⟨job, he⟩
  · simp only [statement, htask] at he
    exact claimStatement_moves he
  · unfold scanStatement at he
    split at he
    · rename_i hpc
      obtain ⟨rfl, rfl⟩ : _ = args ∧ _ = pc := by simpa using hpc.symm.trans htask
      exact claimScan_moves he
    · cases he
  · simp [enqueueMore, htask] at he

/-! ## Queue rows are written under their locks -/

/-- Every step writes only the queue it locks. -/
theorem Steps.queueWrites (h : Steps s t T effect) :
    ∀ w ∈ effect.queueWrites, effect.queueLock = some w.name := by
  rcases h with he | he | ⟨job, he⟩
  · unfold statement at he
    split at he
    · simp [(claimStatement_moves he).queueWrites]
    · exact (callStatement_queueWrites he).2
    · exact (cancelStatement_queueWrites he).2
    · exact (insertStatement_queueWrites he).2
    · exact (replayStatement_queueWrites he).2
    · exact (queueStatement_queueWrites he).2
    · exact (purgeStatement_queueWrites he).2
  · unfold scanStatement at he
    split at he
    · simp [(claimScan_moves he).queueWrites]
    · cases he
  · obtain ⟨done, pc, -, -, -, rfl⟩ := enqueueMore_cases he
    simp

/-- Every step respects the locks. -/
theorem Steps.ok (h : Steps s t T effect) (hinv : Inv s) (hT : TxnOk s t T) : EffectOk s t T effect := by
  rcases h with he | he | ⟨job, he⟩
  · exact statement_ok hinv hT he
  · exact scanStatement_ok hinv hT he
  · exact enqueueMore_ok hT he

/-- What a transaction sees after a step that writes one job. -/
theorem EffectOk.get_view (h : EffectOk s t T effect) {c : Change LogEntry JobEntry}
    (hchanges : effect.changes = [c]) (id : JobId) :
    ((T.after effect).view (s.perform t T effect)).get id =
      if c.event.event.jobId = id then c.version else (T.view s).get id := by
  have hacts := h.consistent
  rw [hchanges] at hacts
  rw [view_perform, hchanges, Dynamics.applyChanges_singleton]
  exact Dynamics.get_applyChange hacts.1 id

/-- The queues a transaction sees after one of its steps. -/
theorem queueView_perform (s : State) (t : TxnId) (T : Txn) (effect : Effect) :
    (T.after effect).queueView (s.perform t T effect) =
      effect.queueWrites.foldl Table.put (T.queueView s) := by
  simp only [Txn.queueView, Txn.after, State.perform, List.foldl_append]

/-- Every queue row an open transaction has written is locked by it. -/
def QueueWritesHeld (s : State) : Prop :=
  ∀ t T, s.txns t = some T → ∀ w ∈ T.queueWrites, s.queueLocks w.name = some t

/-- Every action keeps the written queue rows locked. -/
theorem QueueWritesHeld.step {a : Action} (h : QueueWritesHeld s) (hinv : Inv s)
    (hs : step s a = some s') : QueueWritesHeld s' := by
  rcases step_cases hs with ⟨elapsed, -, rfl⟩ | ⟨request, task, -, hr, rfl⟩ |
    ⟨u, U, effect, hU, he, rfl⟩ | ⟨u, U, -, hU, -, rfl⟩ | ⟨u, U, -, -, rfl⟩
  · exact h
  · intro t T hT w hw
    by_cases hne : t = s.nextTxn
    · obtain rfl : (⟨s.clock, task, [], []⟩ : Txn) = T := by simpa [State.open, hne] using hT
      cases hw
    · exact h t T (by simpa [State.open, hne] using hT) w hw
  · have hsteps : Steps s u U effect := by
      rcases he with ⟨-, he⟩ | ⟨-, he⟩ | ⟨job, -, he⟩
      · exact .inl he
      · exact .inr (.inl he)
      · exact .inr (.inr ⟨job, he⟩)
    intro t T hT w hw
    change takeLock s.queueLocks u effect.queueLock w.name = some t
    by_cases hne : t = u
    · subst hne
      obtain rfl : U.after effect = T := by simpa [State.perform] using hT
      rcases List.mem_append.mp hw with hold | hnew
      · exact takeLock_of_held _ (h t U hU w hold)
      · rw [hsteps.queueWrites w hnew]
        exact takeLock_self _ _ _
    · have hfree := (hsteps.ok hinv (hinv.txn u U hU)).queueLock
      exact (takeLock_of_other hfree hne _).mpr (h t T (by simpa [State.perform, hne] using hT) w hw)
  · intro t T hT w hw
    obtain ⟨hne, hopen⟩ := txns_close (t := u) hT
    exact releaseLocks_eq_some.mpr ⟨h t T hopen w hw, hne⟩
  · intro t T hT w hw
    obtain ⟨hne, hopen⟩ := txns_close hT
    exact releaseLocks_eq_some.mpr ⟨h t T hopen w hw, hne⟩

/-- In every reachable state queue rows are written under their locks. -/
theorem Reachable.queueWritesHeld (h : Reachable s) : QueueWritesHeld s := by
  obtain ⟨clock, hrun⟩ := h
  suffices hinv : Inv s ∧ QueueWritesHeld s from hinv.2
  refine ReachesUnder.invariant (I := fun s => Inv s ∧ QueueWritesHeld s) hrun
    ⟨inv_init clock, fun _ _ hT => by cases hT⟩ ?_
  rintro s a s' ⟨hinv, hheld⟩ - hs
  exact ⟨hinv.step hs, hheld.step hinv hs⟩

/-! ## The others -/

/-- What an open transaction finds unchanged after a step of another one. -/
structure Elsewhere (s s' : State) (t : TxnId) (T : Txn) : Prop where
  queueLocks : ∀ q, s'.queueLocks q = some t ↔ s.queueLocks q = some t
  jobLocks : ∀ id, s'.jobLocks id = some t ↔ s.jobLocks id = some t
  queues : ∀ q, s.queueLocks q = some t → s'.queues.get q = s.queues.get q
  known : ∀ q, s.queues.get q ≠ none → s'.queues.get q ≠ none
  jobs : ∀ id, s.jobLocks id = some t → s'.jobs.get id = s.jobs.get id
  view : ∀ id, s'.jobs.get id = s.jobs.get id → (T.view s').get id = (T.view s).get id
  log : ∃ rest, s'.log = s.log ++ rest

/-- A move that changes neither the tables nor the locks of the transaction. -/
theorem elsewhere_of_eq (hqueueLocks : ∀ q, s'.queueLocks q = some t ↔ s.queueLocks q = some t)
    (hjobLocks : ∀ id, s'.jobLocks id = some t ↔ s.jobLocks id = some t) (hqueues : s'.queues = s.queues)
    (hjobs : s'.jobs = s.jobs) (hlog : s'.log = s.log) : Elsewhere s s' t T where
  queueLocks := hqueueLocks
  jobLocks := hjobLocks
  queues q _ := by rw [hqueues]
  known q hq := by rwa [hqueues]
  jobs id _ := by rw [hjobs]
  view id _ := by rw [Txn.view, hjobs]; rfl
  log := ⟨[], by simp [hlog]⟩

/-- A step of another transaction. -/
theorem elsewhere_perform {u : TxnId} {U : Txn} (he : EffectOk s u U effect) (hne : t ≠ u) :
    Elsewhere s (s.perform u U effect) t T :=
  elsewhere_of_eq (takeLock_of_other he.queueLock hne)
    (takeLock_of_other (fun id hid => (he.jobLock id hid).1) hne) rfl rfl rfl

/-- The rollback of another transaction. -/
theorem elsewhere_close (s : State) {u : TxnId} (hne : t ≠ u) : Elsewhere s (s.close u) t T :=
  elsewhere_of_eq (fun _ => releaseLocks_eq_some.trans (and_iff_left hne))
    (fun _ => releaseLocks_eq_some.trans (and_iff_left hne)) rfl rfl rfl

/-- The commit of another transaction. -/
theorem elsewhere_commit {u : TxnId} {U : Txn} (h : Reachable s) (hT : s.txns t = some T)
    (hU : s.txns u = some U) (hne : t ≠ u) : Elsewhere s (s.commit u U) t T where
  queueLocks _ := releaseLocks_eq_some.trans (and_iff_left hne)
  jobLocks _ := releaseLocks_eq_some.trans (and_iff_left hne)
  queues q hlock := by
    apply Table.get_foldl_put
    intro w hw hname
    have hheld := h.queueWritesHeld u U hU w hw
    rw [show w.name = q from hname, hlock] at hheld
    exact hne (Option.some.inj hheld)
  known _ hq := Table.get_foldl_put_ne_none _ hq
  jobs _ hid := (h.inv.txn u U hU).view_of_other hne hid
  view _ hid := (h.inv.txn t T hT).view_congr ((h.inv.txn u U hU).frame_commit hne) hid
  log := ⟨U.changes.map Change.event, rfl⟩

/-- The step that an action lets a transaction take. -/
def StepsBy (s : State) (t : TxnId) (T : Txn) (a : Action) (effect : Effect) : Prop :=
  a = .advance t ∧ statement s t T = some effect ∨ a = .scan t ∧ scanStatement s t T = some effect ∨
    ∃ job, a = .enqueueMore t job ∧ enqueueMore T job = some effect

/-- A step by an action is a step. -/
theorem StepsBy.steps {a : Action} (h : StepsBy s t T a effect) : Steps s t T effect := by
  rcases h with ⟨-, he⟩ | ⟨-, he⟩ | ⟨job, -, he⟩
  · exact .inl he
  · exact .inr (.inl he)
  · exact .inr (.inr ⟨job, he⟩)

/-- An action moves one transaction, or begins it, and leaves the others what they rely on. -/
theorem Reachable.step_txn {a : Action} (h : Reachable s) (hs : step s a = some s') {t : TxnId} {T : Txn}
    (hT : s'.txns t = some T) :
    s.txns t = some T ∧ Elsewhere s s' t T ∨
    (∃ (request : Request) (task : Task), a = .begin request ∧ request.task s = some task ∧ t = s.nextTxn ∧
      T = ⟨s.clock, task, [], []⟩ ∧ s' = s.open task) ∨
    ∃ U effect, s.txns t = some U ∧ StepsBy s t U a effect ∧ T = U.after effect ∧
      s' = s.perform t U effect := by
  have hinv := h.inv
  rcases step_cases hs with ⟨elapsed, -, rfl⟩ | ⟨request, task, ha, hr, rfl⟩ |
    ⟨u, U, effect, hU, he, rfl⟩ | ⟨u, U, -, hU, -, rfl⟩ | ⟨u, U, -, -, rfl⟩
  · exact .inl ⟨hT, elsewhere_of_eq (fun _ => Iff.rfl) (fun _ => Iff.rfl) rfl rfl rfl⟩
  · by_cases hne : t = s.nextTxn
    · obtain rfl : (⟨s.clock, task, [], []⟩ : Txn) = T := by simpa [State.open, hne] using hT
      exact .inr (.inl ⟨request, task, ha, hr, hne, rfl, rfl⟩)
    · refine .inl ⟨by simpa [State.open, hne] using hT, ?_⟩
      exact elsewhere_of_eq (fun _ => Iff.rfl) (fun _ => Iff.rfl) rfl rfl rfl
  · by_cases hne : t = u
    · subst hne
      obtain rfl : U.after effect = T := by simpa [State.perform] using hT
      exact .inr (.inr ⟨U, effect, hU, he, rfl, rfl⟩)
    · refine .inl ⟨by simpa [State.perform, hne] using hT, ?_⟩
      exact elsewhere_perform ((StepsBy.steps he).ok hinv (hinv.txn u U hU)) hne
  · obtain ⟨hne, hopen⟩ := txns_close (t := u) hT
    exact .inl ⟨hopen, elsewhere_commit h hopen hU hne⟩
  · obtain ⟨hne, hopen⟩ := txns_close hT
    exact .inl ⟨hopen, elsewhere_close s hne⟩

/-- A property of an open transaction, its locks and the rows under them holds throughout a run if
it holds at the begin and is kept by the transaction's own steps. -/
theorem ReachesUnder.txn_rule {ok : State → Action → Prop} {P : State → TxnId → Txn → Prop}
    {clock : Timestamp}
    (hbegin : ∀ s (request : Request) task, Reachable s → ok s (.begin request) →
      request.task s = some task → P (s.open task) s.nextTxn ⟨s.clock, task, [], []⟩)
    (hstep : ∀ s t T a effect, Reachable s → s.txns t = some T → ok s a → StepsBy s t T a effect →
      P s t T → P (s.perform t T effect) t (T.after effect))
    (helsewhere : ∀ s a s' t T, Reachable s → ok s a → step s a = some s' → s.txns t = some T →
      s'.txns t = some T → Elsewhere s s' t T → P s t T → P s' t T)
    (h : ReachesUnder step ok (State.init clock) s) : ∀ t T, s.txns t = some T → P s t T := by
  suffices hinv : Reachable s ∧ ∀ t T, s.txns t = some T → P s t T from hinv.2
  refine h.invariant (I := fun s => Reachable s ∧ ∀ t T, s.txns t = some T → P s t T)
    ⟨⟨clock, .refl⟩, fun _ _ hT => by cases hT⟩ ?_
  rintro s a s' ⟨hreach, hP⟩ hok hs
  refine ⟨hreach.tail hs, fun t T hT => ?_⟩
  rcases hreach.step_txn hs hT with ⟨hopen, helse⟩ | ⟨request, task, rfl, hr, rfl, rfl, rfl⟩ |
    ⟨U, effect, hU, he, rfl, rfl⟩
  · exact helsewhere s a s' t T hreach hok hs hopen hT helse (hP t T hopen)
  · exact hbegin s request task hreach hok hr
  · exact hstep s t U a effect hreach hU hok he (hP t U hU)

/-- A step that comes to a point of a claim round is a step of that round. -/
theorem Steps.claimMove_of_task (h : Steps s t T effect) {args : ClaimArgs} {pc' : ClaimPc}
    (htask : effect.task = .claimLoop args pc') :
    ∃ pc, T.task = .claimLoop args pc ∧ ClaimMove s t T args pc effect := by
  have hleads := h.leadsTo
  rw [htask] at hleads
  obtain ⟨pc, hpc⟩ := hleads.claimLoop
  exact ⟨pc, hpc, h.claimMove hpc⟩

/-- A claim round has written no queue. -/
theorem Reachable.queueView_of_claim (h : Reachable s) (hT : s.txns t = some T) {args : ClaimArgs}
    {pc : ClaimPc} (htask : T.task = .claimLoop args pc) : T.queueView s = s.queues := by
  suffices hwrites : T.queueWrites = [] by
    rw [Txn.queueView, hwrites]
    rfl
  refine h.txn_invariant (P := fun _ T => ∀ args pc, T.task = .claimLoop args pc → T.queueWrites = [])
    (fun _ _ _ _ _ _ _ _ _ => rfl) (fun s t T effect _ _ he hold args pc hpc => ?_) hT args pc htask
  obtain ⟨pc', htask', hmove⟩ := he.claimMove_of_task hpc
  have hnone : effect.queueWrites = [] := hmove.queueWrites
  simp [Txn.after, hold args pc' htask', hnone]

end PgRelay
