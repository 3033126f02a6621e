import PgRelay.Selection.Pages
import PgRelay.SoleTransaction

/-!
# What a crash leaves behind

When all processes die, the database rolls back the transactions they had open, and the jobs they were
executing stay leased. Their leases expire, and the recovery at the start of every round of `_claim_loop`
gives the jobs back, a batch at a time, in the order in which the leases have ended. The round may also
claim jobs, but the new leases end later, so they do not get ahead of the old ones: a lease is recovered after
as many rounds as batches are filled with the leases that ended no later.
-/

namespace PgRelay

open RowStore Selection

variable {s s' : State} {t : TxnId} {T : Txn} {effect : Effect} {args : ClaimArgs} {limit : ℕ}

/-! ## Crashes and rounds -/

/-- All processes die: what they had open is rolled back. -/
def Crash (s s' : State) : Prop := ReachesUnder step (fun _ a => ∃ t, a = .rollback t) s s' ∧ Quiescent s'

/-- A round of `_claim_loop`, while nothing else is open. Its batch is that of the recovery. -/
def ClaimRound (limit : ℕ) (s s' : State) : Prop :=
  ∃ args, limit ≤ args.recoverBatchSize ∧ 0 ≤ args.leaseSeconds ∧ RunsAlone (.claimLoop args .begin) s s'

/-- So many rounds, one after the other. -/
inductive ClaimRounds (limit : ℕ) : ℕ → State → State → Prop
  | none (s : State) : ClaimRounds limit 0 s s
  | more {n : ℕ} {s s' s'' : State} (before : ClaimRounds limit n s s') (last : ClaimRound limit s' s'') :
      ClaimRounds limit (n + 1) s s''

/-- The leases that end before a time. -/
def leasesBefore (jobs : JobTable) (deadline : Timestamp) : ℕ :=
  jobs.count fun entry => LeaseExpired deadline entry.row

/-- The job as the recovery leaves it, or leased anew since. -/
def Recovered (now : Timestamp) (entry entry' : JobEntry) : Prop :=
  entry' = recoverExpiredLease now entry ∨
    entry.row.attemptCount < entry.row.maxAttempts ∧ entry.row.attemptCount < entry'.row.attemptCount ∧
      (recoverExpiredLease now entry).attempts <+: entry'.attempts

/-! ## The rollback of everything -/

/-- A rollback changes no job and lets no time pass. -/
theorem rollback_keeps {a : Action} (ha : ∃ t, a = .rollback t) (hs : step s a = some s') :
    s'.jobs = s.jobs ∧ s'.clock = s.clock ∧ s'.nextTxn = s.nextTxn ∧ ∀ t, s.txns t = none → s'.txns t = none := by
  obtain ⟨u, rfl⟩ := ha
  obtain ⟨U, -, hs⟩ := Option.bind_eq_some_iff.mp hs
  obtain rfl := Option.some.inj hs
  refine ⟨rfl, rfl, rfl, fun t hnone => ?_⟩
  by_cases htu : t = u
  · simp [State.close, htu]
  · simpa [State.close, htu] using hnone

/-- A crash keeps the committed jobs. -/
theorem Crash.keeps (h : Crash s s') : s'.jobs = s.jobs ∧ s'.clock = s.clock ∧ s'.nextTxn = s.nextTxn :=
  h.1.invariant (I := fun x => x.jobs = s.jobs ∧ x.clock = s.clock ∧ x.nextTxn = s.nextTxn) ⟨rfl, rfl, rfl⟩
    fun x a x' hx ha hs => by
      obtain ⟨hjobs, hclock, hnext, -⟩ := rollback_keeps ha hs
      exact ⟨hjobs.trans hx.1, hclock.trans hx.2.1, hnext.trans hx.2.2⟩

/-- A crash is a run of rollbacks. -/
theorem Crash.reachable (h : Crash s s') (hs : Reachable s) : Reachable s' := by
  obtain ⟨clock, hrun⟩ := hs
  exact ⟨clock, hrun.trans h.1.reaches⟩

/-- Everything can be rolled back. -/
theorem exists_crash (h : Reachable s) : ∃ s', Crash s s' := by
  have hupto (n : ℕ) : ∃ s', ReachesUnder step (fun _ a => ∃ t, a = .rollback t) s s' ∧ s'.nextTxn = s.nextTxn ∧
      ∀ t < n, s'.txns t = none := by
    induction n with
    | zero => exact ⟨s, .refl, rfl, fun t ht => absurd ht (Nat.not_lt_zero t)⟩
    | succ n ih =>
      obtain ⟨s', hrun, hnext, hnone⟩ := ih
      cases hn : s'.txns n with
      | none =>
        refine ⟨s', hrun, hnext, fun t ht => ?_⟩
        rcases Nat.lt_succ_iff_lt_or_eq.mp ht with hlt | rfl
        · exact hnone t hlt
        · exact hn
      | some U =>
        have hs : step s' (.rollback n) = some (s'.close n) := by simp [step, hn]
        obtain ⟨-, -, hnext', hkeep⟩ := rollback_keeps ⟨n, rfl⟩ hs
        refine ⟨s'.close n, hrun.tail ⟨.rollback n, ⟨n, rfl⟩, hs⟩, hnext'.trans hnext, fun t ht => ?_⟩
        rcases Nat.lt_succ_iff_lt_or_eq.mp ht with hlt | rfl
        · exact hkeep t (hnone t hlt)
        · simp [State.close]
  obtain ⟨s', hrun, hnext, hnone⟩ := hupto s.nextTxn
  obtain ⟨clock, hbefore⟩ := h
  exact ⟨s', hrun, Reachable.quiescent ⟨clock, hbefore.trans hrun.reaches⟩ hnext.le hnone⟩

/-! ## A round, step by step -/

/-- The row of a job after the recovery of some jobs. -/
def recoveredRow (s : State) (ids : List JobId) (id : JobId) : Option JobEntry :=
  (s.jobs.get id).map fun entry => if id ∈ ids then recoverExpiredLease s.clock entry else entry

/-- The jobs that the recovery of the round picks. -/
def recoverPicked (s : State) (args : ClaimArgs) : List JobId :=
  (recoverCandidates s.clock s.jobs).take args.recoverBatchSize

/-- What a round that is alone has done to the jobs when it has come to a point. -/
def RoundAt (s : State) (args : ClaimArgs) (view : JobTable) : ClaimPc → Prop
  | .begin => view = s.jobs
  | .recovering todo left => ∃ done, recoverCandidates s.clock s.jobs = done ++ todo ∧
      left + done.length = args.recoverBatchSize ∧ ∀ id, view.get id = recoveredRow s done id
  | .finished _ => ∀ id, view.get id = recoveredRow s (recoverPicked s args) id ∨
      ∃ entry, recoveredRow s (recoverPicked s args) id = some entry ∧ Claimable s.clock entry.row ∧
        view.get id = some { entry with row := claimUpdate s.clock args.worker args.leaseSeconds entry.row }
  | _ => ∀ id, view.get id = recoveredRow s (recoverPicked s args) id

/-- Where a round that is alone stands. -/
def RoundStands (s : State) (args : ClaimArgs) (x : State) (T : Txn) : Prop :=
  ∃ pc, T.task = .claimLoop args pc ∧ RoundAt s args (T.view x) pc

variable {x : State} {pc : ClaimPc} {snapshot : JobTable} {picked : List JobId}

/-- A recovery of nothing leaves the rows as they are. -/
theorem recoveredRow_nil (id : JobId) : recoveredRow s [] id = s.jobs.get id := by
  simp [recoveredRow]

/-- The candidates of a recovery are the jobs whose lease has expired. -/
theorem mem_recoverCandidates {now : Timestamp} {jobs : JobTable} {id : JobId} :
    id ∈ recoverCandidates now jobs ↔ ∃ entry, jobs.get id = some entry ∧ LeaseExpired now entry.row := by
  simp only [recoverCandidates, List.mem_map, List.mem_insertionSort, List.mem_filter, decide_eq_true_eq]
  constructor
  · rintro ⟨entry, ⟨hmem, hexpired⟩, rfl⟩
    exact ⟨entry, Table.get_of_mem hmem, hexpired⟩
  · rintro ⟨entry, hget, hexpired⟩
    obtain ⟨hmem, rfl⟩ := (Table.get_eq_some_iff _ _ _).mp hget
    exact ⟨entry, ⟨hmem, hexpired⟩, rfl⟩

/-- Each of them once. -/
theorem nodup_recoverCandidates (now : Timestamp) (jobs : JobTable) : (recoverCandidates now jobs).Nodup := by
  rw [recoverCandidates, ((List.perm_insertionSort _ _).map JobEntry.id).nodup_iff]
  exact (List.filter_sublist.map JobEntry.id).nodup jobs.nodup

/-- The claim changes the rows it picks, and only these. -/
theorem roundAt_claim (h : SoleTxn s x T) (htask : T.task = .claimLoop args (.claiming snapshot [] [] picked))
    (hstands : RoundAt s args (T.view x) (.claiming snapshot [] [] picked)) {entries : List JobEntry}
    (hentries : entries = (claimedIds (T.view x) picked args.batchSize).filterMap (T.view x).get) (rows : List JobRow) :
    RoundAt s args (jobDynamics.applyChanges (T.view x) (entries.map (claimChange s.nextTxn T.now args)))
      (.finished rows) := by
  have hview : ∀ id, (T.view x).get id = recoveredRow s (recoverPicked s args) id := hstands
  have hpicked : ∀ id ∈ picked, ∃ entry, (T.view x).get id = some entry ∧ Claimable T.now entry.row := fun id hid => by
    have hok := (h.reachable.inv.txn _ _ h.txn).task
    simp only [TaskOk, htask] at hok
    exact (hok id hid).2
  have hnodup : (entries.map JobEntry.id).Nodup := by
    rw [hentries]
    exact (Table.map_key_filterMap_get _ _).nodup (List.nodup_dedup _)
  have hrows : ∀ entry ∈ entries, entry ∈ (T.view x).rows ∧ Claimable T.now entry.row := by
    intro entry hentry
    rw [hentries] at hentry
    obtain ⟨id, hid, hget⟩ := List.mem_filterMap.mp hentry
    obtain ⟨entry', hget', hclaim⟩ := hpicked id (mem_picked_of_mem_claimedIds hid)
    obtain rfl := Option.some.inj (hget.symm.trans hget')
    exact ⟨((Table.get_eq_some_iff _ _ _).mp hget).1, hclaim⟩
  obtain ⟨hclaimed, hothers⟩ : Leases T.now args entries (T.view x) _ :=
    leases_applyChanges (t := s.nextTxn) hnodup hrows
  intro id
  by_cases hid : id ∈ entries.map JobEntry.id
  · obtain ⟨entry, hentry, rfl⟩ := List.mem_map.mp hid
    refine .inr ⟨entry, ?_, h.now_eq ▸ (hrows entry hentry).2, h.now_eq ▸ hclaimed entry hentry⟩
    rw [← hview, Table.get_of_mem (hrows entry hentry).1]
  · exact .inl ((hothers id hid).trans (hview id))

/-- The recovery visits its candidates in order and finds each of them as it was. -/
theorem roundAt_visit (h : SoleTxn s x T) {id : JobId} {todo : List JobId} {left : ℕ}
    (htask : T.task = .claimLoop args (.recovering (id :: todo) (left + 1)))
    (hstands : RoundAt s args (T.view x) (.recovering (id :: todo) (left + 1)))
    (he : claimStatement x s.nextTxn T args (.recovering (id :: todo) (left + 1)) = some effect) :
    effect.task = .claimLoop args (.recovering todo left) ∧
      RoundAt s args ((T.after effect).view (x.perform s.nextTxn T effect)) (.recovering todo left) := by
  obtain ⟨done, hcandidates, hleft, hview⟩ := hstands
  have hnodup := nodup_recoverCandidates s.clock s.jobs
  rw [hcandidates, List.nodup_append] at hnodup
  have hfresh : id ∉ done := fun hid => hnodup.2.2 id hid id List.mem_cons_self rfl
  obtain ⟨entry, hget, hexpired⟩ : ∃ entry, s.jobs.get id = some entry ∧ LeaseExpired s.clock entry.row :=
    mem_recoverCandidates.mp (by simp [hcandidates])
  have hsees : (T.view x).get id = some entry := by
    rw [hview, recoveredRow, hget, Option.map_some, if_neg hfresh]
  have hstatement : claimStatement x s.nextTxn T args (.recovering (id :: todo) (left + 1)) =
      some { task := .claimLoop args (.recovering todo left)
             jobLock := some id
             changes := [⟨⟨s.nextTxn, s.clock, .recovered id⟩, some (recoverExpiredLease s.clock entry)⟩] } := by
    simp only [claimStatement, if_pos (h.alone.jobs id), hsees, h.now_eq, if_pos hexpired]
  have hok : EffectOk x s.nextTxn T effect :=
    statement_ok h.reachable.inv (h.reachable.inv.txn _ _ h.txn) (by simpa only [statement, htask] using he)
  obtain rfl := Option.some.inj (hstatement.symm.trans he)
  refine ⟨rfl, done ++ [id], by simp [hcandidates], by simp only [List.length_append, List.length_singleton]; omega,
    fun id' => ?_⟩
  rw [hok.get_view rfl]
  change (if id = id' then some (recoverExpiredLease s.clock entry) else (T.view x).get id') = _
  split_ifs with hsame
  · subst hsame
    simp [recoveredRow, hget]
  · rw [hview, recoveredRow, recoveredRow]
    refine Option.map_congr fun entry' _ => ?_
    simp [Ne.symm hsame]

/-- Inside the claim statement, nothing is written before the update. -/
theorem roundAt_claiming (h : SoleTxn s x T) {todo : List QueueName} {active : List ActiveQueue}
    (htask : T.task = .claimLoop args (.claiming snapshot todo active picked))
    (hstands : RoundAt s args (T.view x) (.claiming snapshot todo active picked))
    (hmove : ClaimMove x s.nextTxn T args (.claiming snapshot todo active picked) effect) :
    ∃ pc', effect.task = .claimLoop args pc' ∧
      RoundAt s args ((T.after effect).view (x.perform s.nextTxn T effect)) pc' := by
  cases hmove with
  | skipQueue hlock hknown => exact ⟨_, rfl, by rw [view_perform_of_nil rfl]; exact hstands⟩
  | activate hrow hpaused => exact ⟨_, rfl, by rw [view_perform_of_nil rfl]; exact hstands⟩
  | skipJob hactive => exact ⟨_, rfl, by rw [view_perform_of_nil rfl]; exact hstands⟩
  | pick hactive hget hqueue => exact ⟨_, rfl, by rw [view_perform_of_nil rfl]; exact hstands⟩
  | claim hentries => exact ⟨_, rfl, by rw [view_perform]; exact roundAt_claim h htask hstands hentries _⟩
  | recover hpc => cases hpc

/-- Every step of the statements keeps to what the round does when it is alone. -/
theorem roundAt_statement (h : SoleTxn s x T) (htask : T.task = .claimLoop args pc)
    (hstands : RoundAt s args (T.view x) pc) (he : claimStatement x s.nextTxn T args pc = some effect) :
    ∃ pc', effect.task = .claimLoop args pc' ∧
      RoundAt s args ((T.after effect).view (x.perform s.nextTxn T effect)) pc' := by
  have hquiet {pc' : ClaimPc} (htask' : effect.task = .claimLoop args pc') (hchanges : effect.changes = [])
      (hstands : RoundAt s args (T.view x) pc') : ∃ pc', effect.task = .claimLoop args pc' ∧
        RoundAt s args ((T.after effect).view (x.perform s.nextTxn T effect)) pc' :=
    ⟨pc', htask', by rwa [view_perform_of_nil hchanges]⟩
  cases pc with
  | begin =>
    cases he
    have hview : T.view x = s.jobs := hstands
    refine hquiet rfl rfl ⟨[], by rw [h.now_eq, hview]; rfl, rfl, fun id => ?_⟩
    rw [recoveredRow_nil, hview]
  | recovering todo left =>
    obtain ⟨done, hcandidates, hleft, hview⟩ := hstands
    have hend (hpicked : recoverPicked s args = done) : RoundAt s args (T.view x) .recovered := by
      intro id
      rw [hpicked, hview]
    cases todo with
    | nil =>
      cases he
      refine hquiet rfl rfl (hend ?_)
      rw [recoverPicked, hcandidates, List.append_nil, List.take_of_length_le (by omega)]
    | cons id todo =>
      cases left with
      | zero =>
        cases he
        refine hquiet rfl rfl (hend ?_)
        rw [recoverPicked, hcandidates, List.take_left' (by omega)]
      | succ left => exact ⟨_, roundAt_visit h htask ⟨done, hcandidates, hleft, hview⟩ he⟩
  | recovered =>
    unfold claimStatement at he
    split_ifs at he
    cases he
    exact hquiet rfl rfl hstands
  | lockingQueues todo =>
    cases claimStatement_moves he with
    | lock hfree => exact hquiet rfl rfl hstands
    | endLocking => exact hquiet rfl rfl hstands
    | recover hpc => cases hpc
  | queuesLocked =>
    cases claimStatement_moves he with
    | beginClaiming => exact hquiet rfl rfl hstands
    | recover hpc => cases hpc
  | claiming snapshot todo active picked => exact roundAt_claiming h htask hstands (claimStatement_moves he)
  | finished rows => cases he

/-- Whatever step the round takes, it stays where it should be. -/
theorem keptAlone_roundStands : KeptAlone s (RoundStands s args) where
  tick _ _ _ h := h
  step x T effect h hP he := by
    obtain ⟨pc, htask, hstands⟩ := hP
    rcases he with he | he | ⟨job, he⟩
    · exact roundAt_statement h htask hstands (by simpa only [statement, htask] using he)
    · unfold scanStatement at he
      split at he
      · rename_i args' snapshot todo active picked htask'
        obtain ⟨rfl, rfl⟩ : args = args' ∧ pc = .claiming snapshot todo active picked := by
          simpa using htask.symm.trans htask'
        exact roundAt_claiming h htask hstands (claimScan_moves he)
      · cases he
    · simp [enqueueMore, htask] at he

/-! ## What a round does -/

/-- What a round has done to the jobs: those that the recovery picks are recovered, and any of the others may be
leased anew. -/
structure RoundDone (s : State) (args : ClaimArgs) (s' : State) : Prop where
  reachable : Reachable s'
  idle : Quiescent s'
  clock_le : s.clock ≤ s'.clock
  rows : ∀ id, s'.jobs.get id = recoveredRow s (recoverPicked s args) id ∨
    ∃ entry, recoveredRow s (recoverPicked s args) id = some entry ∧ Claimable s.clock entry.row ∧
      s'.jobs.get id = some { entry with row := claimUpdate s.clock args.worker args.leaseSeconds entry.row }

/-- Every round ends so. -/
theorem roundDone (h : RunsAlone (.claimLoop args .begin) s s') (hs : Reachable s) (hidle : Quiescent s) :
    RoundDone s args s' := by
  obtain ⟨x, T, hsole, ⟨pc, htask, hstands⟩, hdone, rfl⟩ :=
    h.of_kept keptAlone_roundStands hs hidle (rfl : (Request.claimLoop args).task s = _) ⟨.begin, rfl, rfl⟩
  obtain ⟨hreach, hidle', hclock⟩ := hsole.commit hdone
  refine ⟨hreach, hidle', hclock, ?_⟩
  change ∀ id, (T.view x).get id = _ ∨ _
  rw [htask] at hdone
  cases pc with
  | recovered => exact fun id => .inl (hstands id)
  | finished rows => exact hstands
  | begin | recovering | lockingQueues | queuesLocked | claiming => cases hdone

/-- A round that is alone comes to its end. -/
theorem exists_round (hs : Reachable s) (hidle : Quiescent s) (args : ClaimArgs) :
    ∃ s', RunsAlone (.claimLoop args .begin) s s' := by
  refine exists_runsAlone keptAlone_roundStands hs hidle (rfl : (Request.claimLoop args).task s = _)
    ⟨.begin, rfl, rfl⟩ ?_
  rintro x T ⟨pc, htask, -⟩ (hover | hrefused)
  · simpa [Task.over, htask] using hover
  · simp [Txn.Refused, htask] at hrefused

/-- A job that was there is there after the round: recovered if its lease had ended, then leased anew if it could
be. -/
theorem RoundDone.row (h : RoundDone s args s') {id : JobId} {entry : JobEntry} (hget : s.jobs.get id = some entry) :
    ∃ mid entry', s'.jobs.get id = some entry' ∧
      (mid = entry ∧ id ∉ recoverPicked s args ∨
        LeaseExpired s.clock entry.row ∧ mid = recoverExpiredLease s.clock entry) ∧
      (entry' = mid ∨ Claimable s.clock mid.row ∧
        entry' = { mid with row := claimUpdate s.clock args.worker args.leaseSeconds mid.row }) := by
  have hmid : ∃ mid, recoveredRow s (recoverPicked s args) id = some mid ∧ (mid = entry ∧ id ∉ recoverPicked s args ∨
      LeaseExpired s.clock entry.row ∧ mid = recoverExpiredLease s.clock entry) := by
    by_cases hid : id ∈ recoverPicked s args
    · obtain ⟨entry', hget', hexpired⟩ := mem_recoverCandidates.mp (List.mem_of_mem_take hid)
      obtain rfl := Option.some.inj (hget.symm.trans hget')
      exact ⟨_, by simp [recoveredRow, hget, hid], .inr ⟨hexpired, rfl⟩⟩
    · exact ⟨entry, by simp [recoveredRow, hget, hid], .inl ⟨rfl, hid⟩⟩
  obtain ⟨mid, hrow, hmid⟩ := hmid
  rcases h.rows id with hsame | ⟨mid', hrow', hclaim, hget'⟩
  · exact ⟨mid, mid, hsame.trans hrow, hmid, .inl rfl⟩
  · obtain rfl := Option.some.inj (hrow.symm.trans hrow')
    exact ⟨mid, _, hget', hmid, .inr ⟨hclaim, rfl⟩⟩

/-- A round adds no job. -/
theorem RoundDone.get_of_get (h : RoundDone s args s') {id : JobId} {entry' : JobEntry}
    (hget : s'.jobs.get id = some entry') : ∃ entry, s.jobs.get id = some entry := by
  have hbefore : recoveredRow s (recoverPicked s args) id ≠ none := by
    rcases h.rows id with hsame | ⟨mid, hrow, -⟩
    · simp [← hsame, hget]
    · simp [hrow]
  exact Option.ne_none_iff_exists'.mp fun hnone => hbefore (by simp [recoveredRow, hnone])

/-! ## The order of the leases -/

/-- The candidates of the recovery, the leases that have ended first at the front. -/
def recoverOrder (now : Timestamp) (jobs : JobTable) : List JobEntry :=
  (jobs.rows.filter fun entry => decide (LeaseExpired now entry.row)).insertionSort
    fun a b => a.row.lockedUntil.getD 0 ≤ b.row.lockedUntil.getD 0

/-- The end of a lease, where an earlier one is above a later one. -/
def leaseEnd (entry : JobEntry) : Timestampᵒᵈ := OrderDual.toDual (entry.row.lockedUntil.getD 0)

/-- The order of the recovery has the rows whose lease has expired. -/
theorem mem_recoverOrder {now : Timestamp} {jobs : JobTable} {entry : JobEntry} :
    entry ∈ recoverOrder now jobs ↔ entry ∈ jobs.rows ∧ LeaseExpired now entry.row := by
  simp [recoverOrder]

/-- A lease that ends before a time ends before every later one. -/
theorem LeaseExpired.mono {now now' : Timestamp} {j : JobRow} (h : LeaseExpired now j) (hle : now ≤ now') :
    LeaseExpired now' j := by
  obtain ⟨hleased, hends⟩ := h
  obtain ⟨deadline, hdeadline, hlt⟩ := (Option.any_eq_true _ _).mp hends
  refine ⟨hleased, (Option.any_eq_true _ _).mpr ⟨deadline, hdeadline, decide_eq_true ?_⟩⟩
  exact (of_decide_eq_true hlt).trans_le hle

/-- Among the candidates, the leases that end before a time are those above it. -/
theorem countP_recoverOrder {now deadline : Timestamp} {jobs : JobTable} {order : List JobEntry}
    (hsub : order ⊆ recoverOrder now jobs) : order.countP (fun entry => LeaseExpired deadline entry.row) =
      order.countP fun entry => OrderDual.toDual deadline < leaseEnd entry := by
  refine List.countP_congr fun entry hentry => ?_
  obtain ⟨-, hleased, hends⟩ := mem_recoverOrder.mp (hsub hentry)
  obtain ⟨ends, hsome, -⟩ := (Option.any_eq_true _ _).mp hends
  simp [LeaseExpired, leaseEnd, hleased, hsome]

/-- The order of the recovery begins with the leases that have expired first. -/
theorem pairwise_recoverOrder (now : Timestamp) (jobs : JobTable) :
    (recoverOrder now jobs).Pairwise (DescendingBy leaseEnd) := by
  have : Std.Total fun a b : JobEntry => a.row.lockedUntil.getD 0 ≤ b.row.lockedUntil.getD 0 :=
    ⟨fun a b => le_total _ _⟩
  have : IsTrans JobEntry fun a b => a.row.lockedUntil.getD 0 ≤ b.row.lockedUntil.getD 0 :=
    ⟨fun a b c => le_trans⟩
  exact List.pairwise_insertionSort _ _

/-- The leases that had ended before a time and that a round has passed over. -/
def leasesPassed (s : State) (args : ClaimArgs) (deadline : Timestamp) : ℕ :=
  s.jobs.count fun entry => LeaseExpired deadline entry.row ∧ entry.id ∉ recoverPicked s args

/-- After a round only leases that it has passed over are left: those that it has given out end later. -/
theorem RoundDone.leasesBefore_le_passed (h : RoundDone s args s') (hlease : 0 ≤ args.leaseSeconds)
    {deadline : Timestamp} (hdeadline : deadline ≤ s.clock) :
    leasesBefore s'.jobs deadline ≤ leasesPassed s args deadline := by
  refine Table.count_le_count fun entry' hmem hended => ?_
  have hexpired : LeaseExpired deadline entry'.row := of_decide_eq_true hended
  obtain ⟨hleased, hends⟩ := hexpired
  obtain ⟨entry, hget⟩ := h.get_of_get (Table.get_of_mem hmem)
  obtain ⟨mid, after, hafter, hmid, hmove⟩ := h.row hget
  obtain rfl := Option.some.inj ((Table.get_of_mem hmem).symm.trans hafter)
  rcases hmove with rfl | ⟨-, hclaimed⟩
  · rcases hmid with ⟨rfl, hid⟩ | ⟨-, rfl⟩
    · exact ⟨_, hget, decide_eq_true ⟨of_decide_eq_true hended, hid⟩⟩
    · simp only [recoverExpiredLease, recoverUpdate] at hleased
      split_ifs at hleased
  · -- The lease of a claimed job has not ended yet.
    rw [hclaimed] at hends
    simp only [claimUpdate, Option.any_some, decide_eq_true_eq] at hends
    have hlater : 0 ≤ seconds args.leaseSeconds := Int.mul_nonneg hlease (by decide)
    exact absurd hends (not_lt.mpr (hdeadline.trans (le_add_of_nonneg_right hlater)))

/-- What a round passes over stands behind its batch. -/
theorem leasesPassed_le {deadline : Timestamp} (hdeadline : deadline ≤ s.clock) :
    leasesPassed s args deadline ≤ ((recoverOrder s.clock s.jobs).drop args.recoverBatchSize).countP
      fun entry => LeaseExpired deadline entry.row := by
  rw [leasesPassed, Table.count, List.countP_eq_length_filter]
  have hnodup := (List.Nodup.of_map _ s.jobs.nodup).filter
    fun entry => decide (LeaseExpired deadline entry.row ∧ entry.id ∉ recoverPicked s args)
  refine (hnodup.subperm fun entry hentry => ?_).length_le
  obtain ⟨hmem, hkept⟩ := List.mem_filter.mp hentry
  obtain ⟨hended, hid⟩ := of_decide_eq_true hkept
  have hin := mem_recoverOrder.mpr ⟨hmem, hended.mono hdeadline⟩
  refine List.mem_filter.mpr ⟨?_, decide_eq_true hended⟩
  rw [← List.take_append_drop args.recoverBatchSize (recoverOrder s.clock s.jobs)] at hin
  refine (List.mem_append.mp hin).resolve_left fun hfirst => hid ?_
  change entry.id ∈ ((recoverOrder s.clock s.jobs).map JobEntry.id).take args.recoverBatchSize
  rw [← List.map_take]
  exact List.mem_map_of_mem hfirst

/-- A round leaves so many fewer of the leases that had ended before a time. -/
theorem RoundDone.leasesBefore_le (h : RoundDone s args s') (hlease : 0 ≤ args.leaseSeconds) {deadline : Timestamp}
    (hdeadline : deadline ≤ s.clock) :
    leasesBefore s'.jobs deadline ≤ leasesBefore s.jobs deadline - args.recoverBatchSize := by
  let order := recoverOrder s.clock s.jobs
  let ended : JobEntry → Bool := fun entry => LeaseExpired deadline entry.row
  calc
    leasesBefore s'.jobs deadline ≤ leasesPassed s args deadline := h.leasesBefore_le_passed hlease hdeadline
    _ ≤ (order.drop args.recoverBatchSize).countP ended := leasesPassed_le hdeadline
    _ = order.countP ended - args.recoverBatchSize := by
      rw [countP_recoverOrder (List.drop_subset _ _), countP_drop (pairwise_recoverOrder _ _),
        countP_recoverOrder (List.Subset.refl _)]
    _ ≤ leasesBefore s.jobs deadline - args.recoverBatchSize := by
      refine Nat.sub_le_sub_right ?_ _
      have hperm : order.countP ended = _ := (List.perm_insertionSort _ _).countP_eq ended
      rw [leasesBefore, Table.count, ← List.countP_eq_length_filter, hperm]
      exact List.filter_sublist.countP_le

/-! ## After a crash -/

/-- A recovered job stays recovered when its lease expires again. -/
theorem Recovered.recover {now now' : Timestamp} {entry e : JobEntry} (h : Recovered now entry e)
    (hexpired : LeaseExpired now' e.row) : Recovered now entry (recoverExpiredLease now' e) := by
  rcases h with rfl | ⟨hleft, hcount, hattempts⟩
  · obtain ⟨hleased, -⟩ := hexpired
    simp only [recoverExpiredLease, recoverUpdate] at hleased
    split_ifs at hleased
  · exact .inr ⟨hleft, hcount, hattempts.trans (List.prefix_append _ _)⟩

/-- So it does when it is claimed again. -/
theorem Recovered.claim {now now' : Timestamp} {entry e : JobEntry} {worker : WorkerId} {leaseSeconds : Int}
    (h : Recovered now entry e) (hclaim : Claimable now' e.row) :
    Recovered now entry { e with row := claimUpdate now' worker leaseSeconds e.row } := by
  rcases h with rfl | ⟨hleft, hcount, hattempts⟩
  · exact .inr ⟨hclaim.2.2, Int.lt_succ _, List.prefix_refl _⟩
  · exact .inr ⟨hleft, hcount.trans (Int.lt_succ _), hattempts⟩

/-- What a number of rounds has done. -/
structure RoundsDone (limit n : ℕ) (s s' : State) : Prop where
  reachable : Reachable s'
  idle : Quiescent s'
  clock_le : s.clock ≤ s'.clock
  leases : ∀ deadline ≤ s.clock, leasesBefore s'.jobs deadline ≤ leasesBefore s.jobs deadline - n * limit
  rows : ∀ id entry, s.jobs.get id = some entry → LeaseExpired s.clock entry.row → ∃ entry',
    s'.jobs.get id = some entry' ∧ (entry' = entry ∨ ∃ now, s.clock ≤ now ∧ Recovered now entry entry')

/-- Rounds of a worker that is alone do what they should. -/
theorem ClaimRounds.done {n : ℕ} (h : ClaimRounds limit n s s') (hs : Reachable s) (hidle : Quiescent s) :
    RoundsDone limit n s s' := by
  induction h with
  | none s =>
    exact ⟨hs, hidle, le_refl _, by simp, fun id entry hget _ => ⟨entry, hget, .inl rfl⟩⟩
  | @more n s s' s'' before last ih =>
    have hbefore := ih hs hidle
    obtain ⟨args, hlimit, hlease, hrun⟩ := last
    have hlast := roundDone hrun hbefore.reachable hbefore.idle
    refine ⟨hlast.reachable, hlast.idle, hbefore.clock_le.trans hlast.clock_le, fun deadline hdeadline => ?_,
      fun id entry hget hexpired => ?_⟩
    · have hone := hlast.leasesBefore_le hlease (hdeadline.trans hbefore.clock_le)
      have hmany := hbefore.leases deadline hdeadline
      rw [Nat.succ_mul]
      omega
    · obtain ⟨entry', hget', hkept⟩ := hbefore.rows id entry hget hexpired
      obtain ⟨mid, entry'', hget'', hmid, hmove⟩ := hlast.row hget'
      refine ⟨entry'', hget'', ?_⟩
      have hrecovered (hmid : ∃ now, s.clock ≤ now ∧ Recovered now entry mid) :
          ∃ now, s.clock ≤ now ∧ Recovered now entry entry'' := by
        obtain ⟨now, hnow, hmid⟩ := hmid
        rcases hmove with rfl | ⟨hclaim, rfl⟩
        · exact ⟨now, hnow, hmid⟩
        · exact ⟨now, hnow, hmid.claim hclaim⟩
      rcases hkept with rfl | ⟨now, hnow, hkept⟩
      · rcases hmid with ⟨rfl, -⟩ | ⟨-, rfl⟩
        · rcases hmove with rfl | ⟨hclaim, -⟩
          · exact .inl rfl
          · -- A leased job cannot be claimed.
            exact absurd (hclaim.1.symm.trans hexpired.1) (by decide)
        · exact .inr (hrecovered ⟨_, hbefore.clock_le, .inl rfl⟩)
      · rcases hmid with ⟨rfl, -⟩ | ⟨hexpired', rfl⟩
        · exact .inr (hrecovered ⟨now, hnow, hkept⟩)
        · exact .inr (hrecovered ⟨now, hnow, hkept.recover hexpired'⟩)

/-- A worker that is alone takes as many rounds as it likes. -/
theorem exists_claimRounds (h : Reachable s) (hidle : Quiescent s) (args : ClaimArgs)
    (hlimit : limit ≤ args.recoverBatchSize)
    (hlease : 0 ≤ args.leaseSeconds) (n : ℕ) : ∃ s', ClaimRounds limit n s s' := by
  induction n with
  | zero => exact ⟨s, .none s⟩
  | succ n ih =>
    obtain ⟨s', hrounds⟩ := ih
    have hdone := hrounds.done h hidle
    obtain ⟨s'', hround⟩ := exists_round hdone.reachable hdone.idle args
    exact ⟨s'', hrounds.more ⟨args, hlimit, hlease, hround⟩⟩

/-- After a crash in any state, a worker can take as many rounds as it likes; and as soon as its batches cover
the leases that ended before a time, it has recovered all of these: each job is back, pending or in the dead
letters, with the lost attempt on record, or it has been leased anew since. -/
theorem recovered_after_crash (h : Reachable s) {args : ClaimArgs} (hlease : 0 ≤ args.leaseSeconds) {n : ℕ}
    {deadline : Timestamp} (hdeadline : deadline ≤ s.clock)
    (hcover : leasesBefore s.jobs deadline ≤ n * args.recoverBatchSize) :
    (∃ s₀ s', Crash s s₀ ∧ ClaimRounds args.recoverBatchSize n s₀ s') ∧
    ∀ s₀ s', Crash s s₀ → ClaimRounds args.recoverBatchSize n s₀ s' →
      ∀ id entry, s.jobs.get id = some entry → LeaseExpired deadline entry.row →
        ∃ now entry', s.clock ≤ now ∧ s'.jobs.get id = some entry' ∧ Recovered now entry entry' := by
  constructor
  · obtain ⟨s₀, hcrash⟩ := exists_crash h
    obtain ⟨s', hrounds⟩ := exists_claimRounds (hcrash.reachable h) hcrash.2 args (le_refl _) hlease n
    exact ⟨s₀, s', hcrash, hrounds⟩
  · intro s₀ s' hcrash hrounds id entry hget hexpired
    obtain ⟨hjobs, hclock, -⟩ := hcrash.keeps
    have hdone := hrounds.done (hcrash.reachable h) hcrash.2
    have hnone : leasesBefore s'.jobs deadline = 0 := by
      have hleft := hdone.leases deadline (hclock ▸ hdeadline)
      rw [hjobs] at hleft
      omega
    obtain ⟨entry', hget', rfl | ⟨now, hnow, hrecovered⟩⟩ :=
      hdone.rows id entry (hjobs ▸ hget) (hexpired.mono (hclock ▸ hdeadline))
    · -- A lease that is left would count.
      have hmem := ((Table.get_eq_some_iff _ _ _).mp hget').1
      rw [leasesBefore, Table.count, List.length_eq_zero_iff, List.filter_eq_nil_iff] at hnone
      exact absurd (decide_eq_true hexpired) (hnone entry' hmem)
    · exact ⟨now, entry', hclock ▸ hnow, hget', hrecovered⟩

/-- A job was claimed, its lease has ended, and a round is open that has found it. -/
def crashedRun : List Action :=
  claimedRun ++ [.tick 61000000, .begin (.claimLoop ⟨"v", ["mail"], 1, 60, 10⟩), .advance 2, .advance 2]

/-- A worker that crashes with a leased job, and the first round of the next one. -/
theorem recovered_after_crash_crashedRun : ∃ entry, (stateAfter 0 crashedRun).jobs.get 0 = some entry ∧
    entry.row.status = .leased ∧ ∃ s₀ s', Crash (stateAfter 0 crashedRun) s₀ ∧ ClaimRounds 1 1 s₀ s' ∧
      ∃ now entry', s'.jobs.get 0 = some entry' ∧ Recovered now entry entry' := by
  have hexpired : ((stateAfter 0 crashedRun).jobs.get 0).any (fun entry => LeaseExpired 61000000 entry.row) = true := by
    decide +kernel
  obtain ⟨entry, hget, hentry⟩ := (Option.any_eq_true _ _).mp hexpired
  obtain ⟨⟨s₀, s', hcrash, hrounds⟩, hrecovers⟩ := recovered_after_crash (reachable_stateAfter 0 crashedRun)
    (by decide : 0 ≤ (⟨"v", ["mail"], 1, 60, 1⟩ : ClaimArgs).leaseSeconds) (n := 1)
    (by decide +kernel : (61000000 : Timestamp) ≤ _) (by decide +kernel)
  obtain ⟨now, entry', -, hget', hrecovered⟩ := hrecovers s₀ s' hcrash hrounds 0 entry hget (of_decide_eq_true hentry)
  exact ⟨entry, hget, (of_decide_eq_true hentry).1, s₀, s', hcrash, hrounds, now, entry', hget', hrecovered⟩

end PgRelay
