import PgRelay.Locking

/-!
# Every statement respects the row locks

One lemma for each statement of the program: whatever the other transactions have done since the
statement took its snapshot, its next step takes only free locks and writes only legal versions.
The invariant of the locks then holds in every reachable state, and with it the correspondence
between the committed job table and the ledger.
-/

namespace PgRelay

open RowStore

variable {s : State} {t : TxnId} {T : Txn}

/-! ## Kinds of steps -/

/-- An operation that neither is called by an execution nor inserts is admissible anywhere. -/
def JobEvent.isPlain : JobEvent → Bool
  | .claimed _ _ | .recovered _ | .cancelled _ | .unlinked _ | .deleted _ _ => true
  | .inserted _ _ | .extended _ _ | .returned _ | .completed _ _ | .failed _ _ => false

/-- A plain operation is admissible after every log. -/
theorem admissible_of_isPlain {log : List LogEntry} {op : LogEntry} (h : op.event.isPlain = true) :
    Admissible log op := by
  constructor
  · intro x hx
    cases hop : op.event <;> simp_all [JobEvent.isPlain, JobEvent.caller]
  · intro id job hop
    simp [hop, JobEvent.isPlain] at h

/-- Plain operations can be appended to any admissible log. -/
theorem LogOk.append_of_isPlain {log ops : List LogEntry} (h : LogOk log)
    (hops : ∀ op ∈ ops, op.event.isPlain = true) : LogOk (log ++ ops) := by
  induction ops using List.reverseRecOn with
  | nil => simpa using h
  | append_singleton ops op ih =>
    rw [← List.append_assoc]
    exact (ih fun op' hop' => hops op' (List.mem_append_left _ hop')).snoc
      (admissible_of_isPlain (hops op (by simp)))

/-- A step that writes no job and locks none. -/
theorem EffectOk.of_unlocked {effect : Effect} (hT : TxnOk s t T) (hlock : effect.jobLock = none)
    (hchanges : effect.changes = []) (hqueue : ∀ q, effect.queueLock = some q → Free s.queueLocks q t)
    (htask : TaskOk (s.perform t T effect) t (T.after effect)) : EffectOk s t T effect where
  jobLock _ hid := by simp [hlock] at hid
  queueLock := hqueue
  held _ hc := by simp [hchanges] at hc
  consistent := by rw [hchanges]; trivial
  logOk := by simpa [hchanges] using hT.logOk
  task := htask

/-- A step that locks one job and writes one version of it. -/
theorem EffectOk.of_write {effect : Effect} {c : Change LogEntry JobEntry} (hT : TxnOk s t T)
    (hchanges : effect.changes = [c]) (hlock : effect.jobLock = some c.event.event.jobId)
    (hfree : Free s.jobLocks c.event.event.jobId t)
    (hlt : c.event.event.jobId < s.nextJob + effect.newJobs) (hqueue : effect.queueLock = none)
    (hacts : JobActs c.event ((T.view s).get c.event.event.jobId) c.version)
    (hadmissible : Admissible (s.log ++ T.changes.map Change.event) c.event)
    (htask : TaskOk (s.perform t T effect) t (T.after effect)) : EffectOk s t T effect where
  jobLock id hid := by
    obtain rfl : c.event.event.jobId = id := by simpa [hlock] using hid
    exact ⟨hfree, hlt⟩
  queueLock _ hq := by simp [hqueue] at hq
  held d hd := by
    obtain rfl : d = c := by simpa [hchanges] using hd
    exact Or.inr hlock
  consistent := by
    rw [hchanges]
    exact ⟨hacts, trivial⟩
  logOk := by simpa [hchanges] using hT.logOk.snoc hadmissible
  task := htask

/-- A step inside the claim statement: the jobs it has picked stay locked and claimable. -/
theorem taskOk_claiming {effect : Effect} {args : ClaimArgs} {snapshot : JobTable}
    {todo : List QueueName} {active : List ActiveQueue} {picked : List JobId}
    (htask : effect.task = .claimLoop args (.claiming snapshot todo active picked))
    (hchanges : effect.changes = [])
    (hpicked : ∀ id ∈ picked, (s.jobLocks id = some t ∨ effect.jobLock = some id) ∧
      ∃ entry, (T.view s).get id = some entry ∧ Claimable T.now entry.row) :
    TaskOk (s.perform t T effect) t (T.after effect) := by
  unfold TaskOk
  simp only [Txn.after, htask]
  intro id hid
  obtain ⟨hlock, entry, hget, hclaim⟩ := hpicked id hid
  refine ⟨?_, entry, ?_, hclaim⟩
  · rcases hlock with hheld | hnew
    · exact takeLock_of_held _ hheld
    · simpa only [State.perform, hnew] using takeLock_self s.jobLocks t id
  · have hview := view_perform s t T effect
    rw [hchanges] at hview
    simpa [Txn.after, htask] using (congrArg (fun tbl => Table.get tbl id) hview).trans hget

/-! ## Claim rounds -/

variable {effect : Effect}

/-- Visiting a candidate of a queue. -/
theorem claimScan_ok {args : ClaimArgs} {snapshot : JobTable} {todo : List QueueName}
    {picked : List JobId} {active : List ActiveQueue} (h : Inv s) (hT : TxnOk s t T)
    (hpicked : ∀ id ∈ picked, s.jobLocks id = some t ∧
      ∃ entry, (T.view s).get id = some entry ∧ Claimable T.now entry.row)
    (he : claimScan s t T args snapshot todo picked active = some effect) :
    EffectOk s t T effect := by
  have hquiet (active' : List ActiveQueue) :
      EffectOk s t T { task := .claimLoop args (.claiming snapshot todo active' picked) } :=
    .of_unlocked hT rfl rfl (by simp)
      (taskOk_claiming rfl rfl fun id hid => ⟨Or.inl (hpicked id hid).1, (hpicked id hid).2⟩)
  unfold claimScan at he
  split at he
  · cases he
  · cases he; exact hquiet _
  · cases he; exact hquiet _
  · rename_i q slots id rest active'
    split_ifs at he with hfree
    · split at he
      · cases he; exact hquiet _
      · rename_i entry hget
        split_ifs at he with hclaim
        · cases he
          refine ⟨fun id' hid' => ?_, by simp, by simp, trivial, by simpa using hT.logOk,
            taskOk_claiming rfl rfl fun id' hid' => ?_⟩
          · obtain rfl : id = id' := by simpa using hid'
            exact ⟨hfree, h.lt_nextJob hT hget⟩
          · rcases List.mem_append.mp hid' with hold | hnew
            · exact ⟨Or.inl (hpicked id' hold).1, (hpicked id' hold).2⟩
            · obtain rfl : id' = id := by simpa using hnew
              exact ⟨Or.inr rfl, entry, hget, hclaim.2⟩
        · cases he; exact hquiet _
    · cases he; exact hquiet _

/-- The ids a claim updates are among those it has picked. -/
theorem mem_picked_of_mem_claimedIds {jobs : JobTable} {picked : List JobId} {batchSize : ℕ}
    {id : JobId} (h : id ∈ claimedIds jobs picked batchSize) : id ∈ picked := by
  unfold claimedIds at h
  obtain ⟨entry, hentry, rfl⟩ := List.mem_map.mp (List.mem_dedup.mp h)
  have hmem := (List.mem_insertionSort _).mp (List.mem_of_mem_take hentry)
  obtain ⟨id, hid, hget⟩ := List.mem_filterMap.mp hmem
  rwa [← Table.key_of_get hget] at hid

/-- The last step of the claim: the update of the picked rows, which tests nothing again. -/
theorem claimUpdate_ok {args : ClaimArgs} {picked : List JobId} (hT : TxnOk s t T)
    (hpicked : ∀ id ∈ picked, s.jobLocks id = some t ∧
      ∃ entry, (T.view s).get id = some entry ∧ Claimable T.now entry.row) {entries : List JobEntry}
    (hentries : entries = (claimedIds (T.view s) picked args.batchSize).filterMap (T.view s).get) :
    EffectOk s t T
      { task := .claimLoop args (.finished
          (entries.map fun entry => claimUpdate T.now args.worker args.leaseSeconds entry.row))
        changes := entries.map (claimChange t T.now args) } := by
  have hmem (entry : JobEntry) (hentry : entry ∈ entries) :
      entry.id ∈ picked ∧ (T.view s).get entry.id = some entry := by
    rw [hentries] at hentry
    obtain ⟨id, hid, hget⟩ := List.mem_filterMap.mp hentry
    rw [Table.key_of_get hget]
    exact ⟨mem_picked_of_mem_claimedIds hid, hget⟩
  have hnodup : (entries.map JobEntry.id).Nodup := by
    rw [hentries]
    exact ((T.view s).map_key_filterMap_get _).nodup (List.nodup_dedup _)
  refine ⟨by simp, by simp, fun c hc => ?_, Dynamics.consistent_of_nodup ?_ fun c hc => ?_, ?_, ?_⟩
  · obtain ⟨entry, hentry, rfl⟩ := List.mem_map.mp hc
    exact Or.inl (hpicked _ (hmem entry hentry).1).1
  · rw [List.map_map]
    exact hnodup
  · obtain ⟨entry, hentry, rfl⟩ := List.mem_map.mp hc
    obtain ⟨hid, hget⟩ := hmem entry hentry
    obtain ⟨-, entry', hget', hclaim⟩ := hpicked _ hid
    obtain rfl : entry' = entry := by simpa using hget'.symm.trans hget
    change JobActs _ ((T.view s).get entry'.id) _
    rw [hget]
    exact .claimed hclaim rfl
  · rw [List.map_append, ← List.append_assoc]
    apply hT.logOk.append_of_isPlain
    intro op hop
    obtain ⟨c, hc, rfl⟩ := List.mem_map.mp hop
    obtain ⟨entry, -, rfl⟩ := List.mem_map.mp hc
    rfl
  · intro row hrow
    obtain ⟨entry, hentry, rfl⟩ := List.mem_map.mp hrow
    exact ⟨_, List.mem_append_right _ (List.mem_map_of_mem hentry), rfl⟩

/-- Every step of a claim round. -/
theorem claimStatement_ok {args : ClaimArgs} {pc : ClaimPc} (h : Inv s) (hT : TxnOk s t T)
    (hpc : T.task = .claimLoop args pc) (he : claimStatement s t T args pc = some effect) :
    EffectOk s t T effect := by
  have hquiet {pc' : ClaimPc} (hpc' : TaskOk (s.perform t T { task := .claimLoop args pc' }) t
      (T.after { task := .claimLoop args pc' })) : EffectOk s t T { task := .claimLoop args pc' } :=
    .of_unlocked hT rfl rfl (by simp) hpc'
  have htask := hT.task
  simp only [TaskOk, hpc] at htask
  unfold claimStatement at he
  split at he
  · cases he; exact hquiet trivial
  · cases he; exact hquiet trivial
  · cases he; exact hquiet trivial
  · -- The recovery tests the newest version of the row it has just locked.
    rename_i id todo limit
    split_ifs at he with hfree
    · split at he
      · cases he; exact hquiet trivial
      · rename_i entry hget
        split_ifs at he with hexpired
        · cases he
          refine .of_write hT rfl rfl hfree (h.lt_nextJob hT hget) rfl ?_ (admissible_of_isPlain rfl) trivial
          change JobActs _ ((T.view s).get id) _
          rw [hget]
          exact .recovered hexpired
        · cases he; exact hquiet trivial
    · cases he; exact hquiet trivial
  · split_ifs at he
    cases he; exact hquiet trivial
  · cases he; exact hquiet trivial
  · rename_i q todo
    split_ifs at he with hfree
    cases he
    refine .of_unlocked hT rfl rfl (fun q' hq' => ?_) trivial
    obtain rfl : q = q' := by simpa using hq'
    exact hfree.1
  · cases he
    exact hquiet (taskOk_claiming rfl rfl (by simp))
  · rename_i snapshot q todo active picked
    split_ifs at he with hfree
    have hlocking {effect : Effect} {active' : List ActiveQueue}
        (heffect : effect.task = .claimLoop args (.claiming snapshot todo active' picked))
        (hlock : effect.jobLock = none) (hchanges : effect.changes = [])
        (hqueue : effect.queueLock = none ∨ effect.queueLock = some q) : EffectOk s t T effect := by
      refine .of_unlocked hT hlock hchanges (fun q' hq' => ?_)
        (taskOk_claiming heffect hchanges fun id hid => ⟨Or.inl (htask id hid).1, (htask id hid).2⟩)
      rcases hqueue with hnone | hsome
      · simp [hnone] at hq'
      · obtain rfl : q = q' := by simpa [hsome] using hq'
        exact hfree.1
    split at he
    · cases he; exact hlocking rfl rfl rfl (Or.inl rfl)
    · split_ifs at he
      · cases he; exact hlocking rfl rfl rfl (Or.inr rfl)
      · cases he; exact hlocking rfl rfl rfl (Or.inr rfl)
  · cases he
    exact claimUpdate_ok hT htask rfl
  · exact claimScan_ok h hT htask he
  · cases he

/-! ## The other transactions -/

/-- The write of a call is legal on a row that passes the ownership test. -/
theorem callChange_acts {now : Timestamp} {x : Execution} {entry : JobEntry} (op : CallOp)
    (howned : OwnedBy x.worker entry.row) :
    JobActs (callChange t now x entry op).event (some entry)
    (callChange t now x entry op).version := by
  cases op with
  | extendLease leaseSeconds => exact .extended howned
  | returnToPending => exact .returned howned
  | complete args => exact .completed howned
  | fail args => exact .failed howned

/-- The write of a call is logged for its execution. -/
theorem callChange_caller (now : Timestamp) (x : Execution) (entry : JobEntry) (op : CallOp) :
    (callChange t now x entry op).event.event.caller = some x := by
  cases op <;> rfl

/-- What a step of a call can be: one that only looks at its job, or the write under the job's lock. -/
theorem callStatement_cases {x : Execution} {op : CallOp} {pc : CallPc}
    (he : callStatement s t T x op pc = some effect) :
    (∃ pc', (pc = .begin ∧ (pc' = .matched ∨ pc' = .finished false) ∨ pc = .matched ∧ pc' = .finished false) ∧
        effect = { task := .call x op pc' }) ∨
      ∃ entry, pc = .matched ∧ Free s.jobLocks x.job.id t ∧ (T.view s).get x.job.id = some entry ∧
        OwnedBy x.worker entry.row ∧ effect =
          { task := .call x op (.finished true)
            jobLock := some x.job.id
            changes := [callChange t T.now x entry op] } := by
  unfold callStatement at he
  split at he
  · split at he
    · cases he
      exact .inl ⟨_, .inl ⟨rfl, .inr rfl⟩, rfl⟩
    · split_ifs at he <;> cases he
      · exact .inl ⟨_, .inl ⟨rfl, .inl rfl⟩, rfl⟩
      · exact .inl ⟨_, .inl ⟨rfl, .inr rfl⟩, rfl⟩
  · split_ifs at he with hfree
    split at he
    · cases he
      exact .inl ⟨_, .inr ⟨rfl, rfl⟩, rfl⟩
    · rename_i entry hget
      split_ifs at he with howned <;> cases he
      · exact .inr ⟨entry, rfl, hfree, hget, howned, rfl⟩
      · exact .inl ⟨_, .inr ⟨rfl, rfl⟩, rfl⟩
  · cases he

/-- Every step of a call. -/
theorem callStatement_ok {x : Execution} {op : CallOp} {pc : CallPc} (h : Inv s) (hT : TxnOk s t T)
    (hpc : T.task = .call x op pc) (he : callStatement s t T x op pc = some effect) :
    EffectOk s t T effect := by
  have hx : x ∈ s.executions := by simpa only [TaskOk, hpc] using hT.task
  obtain ⟨pc', -, rfl⟩ | ⟨entry, -, hfree, hget, howned, rfl⟩ := callStatement_cases he
  · exact .of_unlocked hT rfl rfl (by simp) hx
  · have hcaller := callChange_caller (t := t) T.now x entry op
    have hid : (callChange t T.now x entry op).event.event.jobId = x.job.id :=
      (JobEvent.jobId_of_caller hcaller).symm
    refine .of_write hT rfl (by rw [hid]) (by rwa [hid]) (by rw [hid]; exact h.lt_nextJob hT hget) rfl
      ?_ ⟨fun y hy => ?_, fun id job hevent => ?_⟩ hx
    · rw [hid, hget]
      exact callChange_acts op howned
    · obtain rfl : x = y := by simpa using hcaller.symm.trans hy
      obtain ⟨c, hc, hclaim⟩ := h.executions x hx
      exact ⟨c, List.mem_append_left _ hc, hclaim⟩
    · rw [hevent] at hcaller
      cases hcaller

/-- What a step of a cancel can be: one that only looks at its job, or the write under the job's lock. -/
theorem cancelStatement_cases {id : JobId} {pc : CancelPc} (he : cancelStatement s t T id pc = some effect) :
    (∃ pc', (pc = .begin ∧ (pc' = .checked ∨ pc' = .finished .notFound ∨ pc' = .finished .conflict) ∨
          pc = .checked ∧ (pc' = .matched ∨ pc' = .finished .conflict) ∨
          pc = .matched ∧ pc' = .finished .conflict) ∧
        effect = { task := .cancel id pc' }) ∨
      ∃ entry, pc = .matched ∧ Free s.jobLocks id t ∧ (T.view s).get id = some entry ∧
        entry.row.status = .pending ∧ effect =
          { task := .cancel id (.finished .cancelled)
            jobLock := some id
            changes := [⟨⟨t, T.now, .cancelled id⟩, some { entry with row := cancelUpdate T.now entry.row }⟩] } := by
  unfold cancelStatement at he
  split at he
  · split at he
    · cases he
      exact .inl ⟨_, .inl ⟨rfl, .inr (.inl rfl)⟩, rfl⟩
    · split_ifs at he <;> cases he
      · exact .inl ⟨_, .inl ⟨rfl, .inl rfl⟩, rfl⟩
      · exact .inl ⟨_, .inl ⟨rfl, .inr (.inr rfl)⟩, rfl⟩
  · split at he
    · cases he
      exact .inl ⟨_, .inr (.inl ⟨rfl, .inr rfl⟩), rfl⟩
    · split_ifs at he <;> cases he
      · exact .inl ⟨_, .inr (.inl ⟨rfl, .inl rfl⟩), rfl⟩
      · exact .inl ⟨_, .inr (.inl ⟨rfl, .inr rfl⟩), rfl⟩
  · split_ifs at he with hfree
    split at he
    · cases he
      exact .inl ⟨_, .inr (.inr ⟨rfl, rfl⟩), rfl⟩
    · rename_i entry hget
      split_ifs at he with hpending <;> cases he
      · exact .inr ⟨entry, rfl, hfree, hget, hpending, rfl⟩
      · exact .inl ⟨_, .inr (.inr ⟨rfl, rfl⟩), rfl⟩
  · cases he

/-- Every step of a cancel. -/
theorem cancelStatement_ok {id : JobId} {pc : CancelPc} (h : Inv s) (hT : TxnOk s t T)
    (he : cancelStatement s t T id pc = some effect) : EffectOk s t T effect := by
  obtain ⟨pc', -, rfl⟩ | ⟨entry, -, hfree, hget, hpending, rfl⟩ := cancelStatement_cases he
  · exact .of_unlocked hT rfl rfl (by simp) trivial
  · refine .of_write hT rfl rfl hfree (h.lt_nextJob hT hget) rfl ?_ (admissible_of_isPlain rfl) trivial
    change JobActs _ ((T.view s).get id) _
    rw [hget]
    exact .cancelled hpending

/-- What the insertion of a queue does: it finds the queue, or it locks and writes the new row. -/
theorem upsertQueue_cases {name : QueueName} {next : Task} (he : upsertQueue s t T name next = some effect) :
    (T.queueView s).get name ≠ none ∧ effect = { task := next } ∨
      (T.queueView s).get name = none ∧ Free s.queueLocks name t ∧
        effect = { task := next, queueLock := some name, queueWrites := [newQueue T.now name] } := by
  unfold upsertQueue at he
  split at he
  · rename_i row hrow
    split_ifs at he
    exact .inl ⟨by simp [hrow], (Option.some.inj he).symm⟩
  · rename_i hnone
    split_ifs at he with hfree
    exact .inr ⟨hnone, hfree, (Option.some.inj he).symm⟩

/-- What the end of an insertion does: its checks come through, and it locks and writes the new row. -/
theorem insertNew_cases {job : NewJob} (he : insertNew s t T job = some effect) :
    0 < job.maxAttempts ∧ sourceAlive s t T job.replayedFromJobId = true ∧ effect =
      { task := .insert job (.finished s.nextJob true)
        jobLock := some s.nextJob
        keyShare := job.replayedFromJobId
        changes := [⟨⟨t, T.now, .inserted s.nextJob job⟩, some ⟨insertJob s.nextJob T.now job, []⟩⟩]
        newJobs := 1 } := by
  unfold insertNew at he
  split_ifs at he with hchecks
  exact ⟨hchecks.1, hchecks.2, (Option.some.inj he).symm⟩

/-- The insertion of a queue that may be missing. -/
theorem upsertQueue_ok {name : QueueName} {next : Task} (hT : TxnOk s t T)
    (hnext : ∀ s' T', T'.task = next → TaskOk s' t T')
    (he : upsertQueue s t T name next = some effect) :
    EffectOk s t T effect := by
  obtain ⟨-, rfl⟩ | ⟨-, hfree, rfl⟩ := upsertQueue_cases he
  · exact .of_unlocked hT rfl rfl (by simp) (hnext _ _ rfl)
  · refine .of_unlocked hT rfl rfl (fun q hq => ?_) (hnext _ _ rfl)
    obtain rfl : name = q := by simpa using hq
    exact hfree

/-- The id an insertion draws is that of no job, no lock and no logged operation. -/
theorem insertNew_ok {job : NewJob} (h : Inv s) (hT : TxnOk s t T)
    (he : insertNew s t T job = some effect) :
    EffectOk s t T effect := by
  obtain ⟨hmax, -, rfl⟩ := insertNew_cases he
  obtain ⟨hjob, hlock, hlog⟩ := h.ids s.nextJob le_rfl
  have hunlocked : s.jobLocks s.nextJob ≠ some t := by simp [hlock]
  refine .of_write hT rfl rfl (Or.inl hlock) (Nat.lt_succ_self _) rfl ?_ ⟨fun x hx => ?_, ?_⟩ trivial
  · change JobActs _ ((T.view s).get s.nextJob) _
    rw [hT.view_of_unlocked hunlocked, hjob]
    exact .inserted hmax
  · cases hx
  · intro id job' hevent c hc
    obtain ⟨rfl, -⟩ : s.nextJob = id ∧ job = job' := by simpa using hevent
    rcases List.mem_append.mp hc with hold | hnew
    · exact hlog c hold
    · obtain ⟨change, hchange, rfl⟩ := List.mem_map.mp hnew
      exact fun heq => hunlocked (heq ▸ hT.locked change hchange)

/-- What a step of an insertion can be: the insertion of the queue, that of the job, or one that writes nothing
and takes at most an index entry or a shared lock. -/
theorem insertStatement_cases {job : NewJob} {pc : InsertPc} (he : insertStatement s t T job pc = some effect) :
    upsertQueue s t T job.queueName (.insert job .queueUpserted) = some effect ∨ insertNew s t T job = some effect ∨
      ∃ pc' keyLock queueShare,
        effect = { task := .insert job pc', keyLock := keyLock, queueShare := queueShare } := by
  unfold insertStatement at he
  split at he
  · exact .inl he
  · split at he <;> cases he <;> exact .inr (.inr ⟨_, _, _, rfl⟩)
  · split at he
    · cases he
      exact .inr (.inr ⟨_, _, _, rfl⟩)
    · split_ifs at he
      split at he
      · split_ifs at he
        cases he
        exact .inr (.inr ⟨_, _, _, rfl⟩)
      · cases he
        exact .inr (.inr ⟨_, _, _, rfl⟩)
  · split_ifs at he
    cases he
    exact .inr (.inr ⟨_, _, _, rfl⟩)
  · exact .inr (.inl he)
  · split at he <;> cases he <;> exact .inr (.inr ⟨_, _, _, rfl⟩)
  · cases he
  · cases he

/-- Every step of an insertion. -/
theorem insertStatement_ok {job : NewJob} {pc : InsertPc} (h : Inv s) (hT : TxnOk s t T)
    (he : insertStatement s t T job pc = some effect) : EffectOk s t T effect := by
  have hok (s' : State) (T' : Txn) (pc' : InsertPc) (hT' : T'.task = .insert job pc') : TaskOk s' t T' := by
    simp only [TaskOk, hT']
  rcases insertStatement_cases he with he | he | ⟨pc', keyLock, queueShare, rfl⟩
  · exact upsertQueue_ok hT (fun s' T' hT' => hok s' T' _ hT') he
  · exact insertNew_ok h hT he
  · exact .of_unlocked hT rfl rfl (by simp) (hok _ _ pc' rfl)

/-- What a step of a replay can be: it refuses, or it goes on to insert the copy of the job that it has read. -/
theorem replayStatement_cases {id : JobId} {force : Bool} {pc : ReplayPc}
    (he : replayStatement s T id force pc = some effect) :
    pc = .begin ∧
      ((∃ pc', (pc' = .notFound ∨ pc' = .conflict) ∧ effect = { task := .replay id force pc' }) ∨
        ∃ source, (T.view s).get id = some source ∧
          effect = { task := .insert (replayJob source.row (replayKey id)) .begin }) := by
  unfold replayStatement at he
  split at he
  · refine ⟨rfl, ?_⟩
    split at he
    · cases he
      exact .inl ⟨_, .inl rfl, rfl⟩
    · rename_i source hget
      split_ifs at he <;> cases he
      · exact .inr ⟨source, hget, rfl⟩
      · exact .inl ⟨_, .inr rfl, rfl⟩
  · cases he
  · cases he

/-- The step of a replay before it inserts. -/
theorem replayStatement_ok {id : JobId} {force : Bool} {pc : ReplayPc} (hT : TxnOk s t T)
    (he : replayStatement s T id force pc = some effect) : EffectOk s t T effect := by
  obtain ⟨-, ⟨pc', -, rfl⟩ | ⟨source, -, rfl⟩⟩ := replayStatement_cases he
  · exact .of_unlocked hT rfl rfl (by simp) trivial
  · exact .of_unlocked hT rfl rfl (by simp) trivial

/-- What a step of a queue update can be: the insertion of the queue, one that only looks at the queue, or the write
of the row that it has locked. -/
theorem queueStatement_cases {args : QueueArgs} {pc : QueuePc} (he : queueStatement s t T args pc = some effect) :
    pc = .begin ∧ upsertQueue s t T args.name (.updateQueue args .upserted) = some effect ∨
      (∃ pc', (pc = .upserted ∧ (pc' = .failed ∨ pc' = .matched ∨ pc' = .finished ∧
            (args.paused = none ∧ args.concurrencyLimit = none) ∧ (T.queueView s).get args.name ≠ none) ∨
          pc = .matched ∧ pc' = .failed) ∧
        effect = { task := .updateQueue args pc' }) ∨
      ∃ row, pc = .matched ∧ Free s.queueLocks args.name t ∧ (T.queueView s).get args.name = some row ∧
        0 < args.concurrencyLimit.getD row.concurrencyLimit ∧ effect =
          { task := .updateQueue args .finished
            queueLock := some args.name
            queueWrites := [{ row with
              paused := args.paused.getD row.paused
              concurrencyLimit := args.concurrencyLimit.getD row.concurrencyLimit
              updatedAt := T.now }] } := by
  unfold queueStatement at he
  split at he
  · exact .inl ⟨rfl, he⟩
  · split at he
    · cases he
      exact .inr (.inl ⟨_, .inl ⟨rfl, .inl rfl⟩, rfl⟩)
    · rename_i row hget
      split_ifs at he with hnone <;> cases he
      · exact .inr (.inl ⟨_, .inl ⟨rfl, .inr (.inr ⟨rfl, hnone, by simp [hget]⟩)⟩, rfl⟩)
      · exact .inr (.inl ⟨_, .inl ⟨rfl, .inr (.inl rfl)⟩, rfl⟩)
  · split_ifs at he with hfree
    split at he
    · cases he
      exact .inr (.inl ⟨_, .inr ⟨rfl, rfl⟩, rfl⟩)
    · rename_i row hget
      split_ifs at he with hlimit
      cases he
      exact .inr (.inr ⟨row, rfl, hfree, hget, hlimit, rfl⟩)
  · cases he
  · cases he

/-- Every step of a queue update. -/
theorem queueStatement_ok {args : QueueArgs} {pc : QueuePc} (hT : TxnOk s t T)
    (he : queueStatement s t T args pc = some effect) : EffectOk s t T effect := by
  obtain ⟨-, hupsert⟩ | ⟨pc', -, rfl⟩ | ⟨row, -, hfree, -, -, rfl⟩ := queueStatement_cases he
  · exact upsertQueue_ok hT (fun s' T' hT' => by simp only [TaskOk, hT']) hupsert
  · exact .of_unlocked hT rfl rfl (by simp) trivial
  · refine .of_unlocked hT rfl rfl (fun q hq => ?_) trivial
    obtain rfl : args.name = q := by simpa using hq
    exact hfree

/-- A committed job has been logged. -/
theorem Inv.logged (h : Inv s) {id : JobId} {entry : JobEntry} (hget : s.jobs.get id = some entry) :
    ∃ c ∈ s.log, c.event.jobId = id := by
  have hevolves := h.replays.evolves id
  rw [hget] at hevolves
  generalize hops : s.log.filter (fun op => jobDynamics.target op = id) = ops at hevolves
  cases hevolves with
  | snoc _ _ =>
    rename_i events op before hbefore hacts
    have hop : op ∈ s.log.filter (fun op => jobDynamics.target op = id) := by simp [hops]
    obtain ⟨hmem, htarget⟩ := List.mem_filter.mp hop
    exact ⟨op, hmem, of_decide_eq_true htarget⟩

/-- What a purge finds in its snapshot. -/
theorem mem_purgeCandidates {now : Timestamp} {args : PurgeArgs} {jobs : JobTable}
    {p : JobId × JobStatus} (h : p ∈ purgeCandidates now args jobs) :
    ∃ entry, jobs.get p.1 = some entry ∧ Purgeable now args entry.row ∧ entry.row.status = p.2 := by
  unfold purgeCandidates at h
  obtain ⟨entry, hentry, rfl⟩ := List.mem_map.mp h
  have hmem := (List.mem_insertionSort _).mp (List.mem_of_mem_take hentry)
  obtain ⟨hrow, hpurge⟩ := List.mem_filter.mp hmem
  exact ⟨entry, Table.get_of_mem hrow, by simpa using hpurge, rfl⟩

/-- Every step of a purge. -/
theorem purgeStatement_ok {args : PurgeArgs} {pc : PurgePc} (h : Inv s) (hT : TxnOk s t T)
    (hpc : T.task = .purge args pc) (he : purgeStatement s t T args pc = some effect) :
    EffectOk s t T effect := by
  have htask := hT.task
  simp only [TaskOk, hpc] at htask
  unfold purgeStatement at he
  split at he
  · cases he
    refine .of_unlocked hT rfl rfl (by simp) fun p hp => ?_
    obtain ⟨entry, hget, hpurge, hstatus⟩ := mem_purgeCandidates hp
    have hview : T.view s = s.jobs := by rw [Txn.view, htask]; rfl
    refine ⟨h.logged (hview ▸ hget), fun entry' hget' => ?_⟩
    rw [view_perform] at hget'
    obtain rfl : entry = entry' := Option.some.inj (hget.symm.trans hget')
    exact ⟨hpurge, hstatus⟩
  · cases he
    exact .of_unlocked hT rfl rfl (by simp) trivial
  · rename_i id status todo deleted
    split_ifs at he with hfree
    obtain ⟨-, hpurge⟩ := htask (id, status) List.mem_cons_self
    split at he
    · cases he
      refine .of_unlocked hT rfl rfl (by simp) fun p hp => ?_
      obtain ⟨hlogged, hrow⟩ := htask p (List.mem_cons_of_mem _ hp)
      refine ⟨hlogged, fun entry hget => hrow entry ?_⟩
      rwa [view_perform] at hget
    · rename_i entry hget
      cases he
      have hacts : JobActs ⟨t, T.now, .deleted id args⟩ ((T.view s).get id) none := by
        rw [hget]
        exact .deleted (hpurge entry hget).1
      refine .of_write hT rfl rfl hfree.1 (h.lt_nextJob hT hget) rfl hacts (admissible_of_isPlain rfl)
        fun p hp => ?_
      obtain ⟨hlogged, hrow⟩ := htask p (List.mem_cons_of_mem _ hp)
      refine ⟨hlogged, fun entry' hget' => hrow entry' ?_⟩
      rw [view_perform] at hget'
      change (jobDynamics.applyChange (T.view s) ⟨⟨t, T.now, .deleted id args⟩, none⟩).get p.1 = _ at hget'
      rw [Dynamics.get_applyChange hacts] at hget'
      split_ifs at hget'
      exact hget'
  · cases he
    exact .of_unlocked hT rfl rfl (by simp) trivial
  · rename_i id todo deleted
    split_ifs at he with hfree
    split at he
    · cases he
      exact .of_unlocked hT rfl rfl (by simp) trivial
    · rename_i entry hget
      cases he
      refine .of_write hT rfl rfl hfree (h.lt_nextJob hT hget) rfl ?_ (admissible_of_isPlain rfl) trivial
      change JobActs _ ((T.view s).get id) _
      rw [hget]
      exact .unlinked
  · cases he

/-! ## All reachable states -/

/-- Every step of every statement respects the locks. -/
theorem statement_ok (h : Inv s) (hT : TxnOk s t T) (he : statement s t T = some effect) :
    EffectOk s t T effect := by
  unfold statement at he
  split at he
  · exact claimStatement_ok h hT ‹_› he
  · exact callStatement_ok h hT ‹_› he
  · exact cancelStatement_ok h hT he
  · exact insertStatement_ok h hT he
  · exact replayStatement_ok hT he
  · exact queueStatement_ok hT he
  · exact purgeStatement_ok h hT ‹_› he

/-- So does a candidate visited before the last queue is locked. -/
theorem scanStatement_ok (h : Inv s) (hT : TxnOk s t T) (he : scanStatement s t T = some effect) :
    EffectOk s t T effect := by
  have htask := hT.task
  unfold scanStatement at he
  split at he
  · rename_i hpc
    simp only [TaskOk, hpc] at htask
    exact claimScan_ok h hT htask he
  · cases he

/-- The transition to the next enqueue of a session follows an insertion that has come to its end. -/
theorem enqueueMore_cases {job : NewJob} (he : enqueueMore T job = some effect) :
    ∃ done pc, T.task = .insert done pc ∧ ((∃ id created, pc = .finished id created) ∨ pc = .failed) ∧
      job.replayedFromJobId = none ∧ effect = { task := .insert job .begin } := by
  unfold enqueueMore at he
  split at he
  · rename_i done id created hT
    split_ifs at he with hnone
    cases he
    exact ⟨done, _, hT, .inl ⟨id, created, rfl⟩, hnone.2, rfl⟩
  · rename_i done hT
    split_ifs at he with hnone
    cases he
    exact ⟨done, _, hT, .inr rfl, hnone.2, rfl⟩
  · cases he

/-- So does the transition to the next enqueue of a session. -/
theorem enqueueMore_ok {job : NewJob} (hT : TxnOk s t T) (he : enqueueMore T job = some effect) :
    EffectOk s t T effect := by
  obtain ⟨done, pc, -, -, -, rfl⟩ := enqueueMore_cases he
  exact .of_unlocked hT rfl rfl (by simp) trivial

/-- The migrated tables keep the invariant. -/
theorem inv_init (clock : Timestamp) : Inv (State.init clock) where
  replays := Dynamics.replays_nil
  logOk := logOk_nil
  executions _ hx := by cases hx
  unborn _ _ := rfl
  jobLocks _ _ hk := by cases hk
  queueLocks _ _ hk := by cases hk
  queueShares _ _ hk := by cases hk
  ids _ _ := ⟨rfl, rfl, fun _ hc => by cases hc⟩
  txn _ _ hT := by cases hT

/-- Where an action leads: the clock moves, a transaction begins, takes a step, commits or rolls back. -/
theorem step_cases {a : Action} {s' : State} (hs : step s a = some s') :
    (∃ elapsed, a = .tick elapsed ∧ s' = { s with clock := s.clock + elapsed }) ∨
    (∃ request task, a = .begin request ∧ request.task s = some task ∧ s' = s.open task) ∨
    (∃ t T effect, s.txns t = some T ∧ (a = .advance t ∧ statement s t T = some effect ∨
      a = .scan t ∧ scanStatement s t T = some effect ∨
      ∃ job, a = .enqueueMore t job ∧ enqueueMore T job = some effect) ∧ s' = s.perform t T effect) ∨
    (∃ t T, a = .commit t ∧ s.txns t = some T ∧ T.task.committable = true ∧ s' = s.commit t T) ∨
    (∃ t T, a = .rollback t ∧ s.txns t = some T ∧ s' = s.close t) := by
  cases a with
  | tick elapsed => exact .inl ⟨elapsed, rfl, by simpa [step] using hs.symm⟩
  | begin request =>
    obtain ⟨task, htask, rfl⟩ := Option.map_eq_some_iff.mp hs
    exact .inr (.inl ⟨request, task, rfl, htask, rfl⟩)
  | advance t =>
    obtain ⟨T, hT, hs⟩ := Option.bind_eq_some_iff.mp hs
    obtain ⟨effect, he, rfl⟩ := Option.map_eq_some_iff.mp hs
    exact .inr (.inr (.inl ⟨t, T, effect, hT, .inl ⟨rfl, he⟩, rfl⟩))
  | scan t =>
    obtain ⟨T, hT, hs⟩ := Option.bind_eq_some_iff.mp hs
    obtain ⟨effect, he, rfl⟩ := Option.map_eq_some_iff.mp hs
    exact .inr (.inr (.inl ⟨t, T, effect, hT, .inr (.inl ⟨rfl, he⟩), rfl⟩))
  | enqueueMore t job =>
    obtain ⟨T, hT, hs⟩ := Option.bind_eq_some_iff.mp hs
    obtain ⟨effect, he, rfl⟩ := Option.map_eq_some_iff.mp hs
    exact .inr (.inr (.inl ⟨t, T, effect, hT, .inr (.inr ⟨job, rfl, he⟩), rfl⟩))
  | commit t =>
    obtain ⟨T, hT, hs⟩ := Option.bind_eq_some_iff.mp hs
    split_ifs at hs with hcommit
    exact .inr (.inr (.inr (.inl ⟨t, T, rfl, hT, hcommit, by simpa using hs.symm⟩)))
  | rollback t =>
    obtain ⟨T, hT, hs⟩ := Option.bind_eq_some_iff.mp hs
    exact .inr (.inr (.inr (.inr ⟨t, T, rfl, hT, by simpa using hs.symm⟩)))

/-- What a transaction relies on when it begins. -/
theorem Request.taskOk {request : Request} {task : Task} (hr : request.task s = some task)
    (s' : State) (t : TxnId) (T : Txn) (htask : T.task = task) (hchanges : T.changes = [])
    (hexecutions : s'.executions = s.executions) : TaskOk s' t T := by
  cases request with
  | call i op =>
    obtain ⟨x, hx, rfl⟩ := Option.map_eq_some_iff.mp hr
    simp only [TaskOk, htask, hexecutions]
    exact List.mem_of_getElem? hx
  | enqueue job =>
    simp only [Request.task] at hr
    split_ifs at hr
    obtain rfl : .insert job .begin = task := by simpa using hr
    simp only [TaskOk, htask]
  | purge args =>
    obtain rfl : .purge args .begin = task := by simpa [Request.task] using hr
    simpa only [TaskOk, htask] using hchanges
  | _ =>
    simp only [Request.task, Option.some.injEq] at hr
    subst hr
    simp only [TaskOk, htask]

/-- Every action keeps the invariant. -/
theorem Inv.step {s' : State} {a : Action} (h : Inv s) (hs : step s a = some s') : Inv s' := by
  rcases step_cases hs with ⟨elapsed, -, rfl⟩ | ⟨request, task, -, hr, rfl⟩ |
    ⟨t, T, effect, hT, he, rfl⟩ | ⟨t, T, -, hT, -, rfl⟩ | ⟨t, T, -, -, rfl⟩
  · exact ⟨h.replays, h.logOk, h.executions, h.unborn, h.jobLocks, h.queueLocks, h.queueShares, h.ids,
      fun t T hT => (h.txn t T hT).frame ⟨fun _ hx => hx, fun _ hc => hc, fun _ hk => hk, fun _ _ => rfl,
        fun _ _ after hafter => ⟨after, hafter, fun _ => .refl after⟩⟩ (h.txn t T hT).logOk⟩
  · exact h.open (Request.taskOk hr)
  · rcases he with ⟨-, he⟩ | ⟨-, he⟩ | ⟨job, -, he⟩
    · exact h.perform hT (statement_ok h (h.txn t T hT) he)
    · exact h.perform hT (scanStatement_ok h (h.txn t T hT) he)
    · exact h.perform hT (enqueueMore_ok (h.txn t T hT) he)
  · exact h.commit hT
  · exact h.close t

/-- Only a commit changes the job table. -/
theorem jobs_of_step {s s' : State} {a : Action} (hs : PgRelay.step s a = some s') :
    (∃ t T, a = .commit t ∧ s.txns t = some T ∧ T.task.committable = true ∧ s' = s.commit t T) ∨
      (∀ t, a ≠ .commit t) ∧ s'.jobs = s.jobs ∧ s'.log = s.log := by
  rcases step_cases hs with ⟨elapsed, rfl, rfl⟩ | ⟨request, task, rfl, -, rfl⟩ |
    ⟨t, T, effect, -, ha, rfl⟩ | hcommit | ⟨t, T, rfl, -, rfl⟩
  · exact Or.inr ⟨by simp, rfl, rfl⟩
  · exact Or.inr ⟨by simp, rfl, rfl⟩
  · refine Or.inr ⟨fun t' => ?_, rfl, rfl⟩
    rcases ha with ⟨rfl, -⟩ | ⟨rfl, -⟩ | ⟨job, rfl, -⟩ <;> simp
  · exact Or.inl hcommit
  · exact Or.inr ⟨by simp, rfl, rfl⟩

/-- The invariant holds in every reachable state. -/
theorem Reachable.inv {s : State} (h : Reachable s) : Inv s := by
  obtain ⟨clock, hrun⟩ := h
  exact hrun.invariant (inv_init clock) fun _ _ _ hinv _ hs => hinv.step hs

/-- The migrated tables are reachable. -/
theorem reachable_init (clock : Timestamp) : Reachable (State.init clock) := ⟨clock, .refl⟩

/-- Every action leads from a reachable state to another one. -/
theorem Reachable.tail {s s' : State} {a : Action} (h : Reachable s) (hs : PgRelay.step s a = some s') :
    Reachable s' := by
  obtain ⟨clock, hrun⟩ := h
  exact ⟨clock, Relation.ReflTransGen.tail hrun ⟨a, trivial, hs⟩⟩

/-- In every reachable state the committed row of a job is what the logged operations on it have
made of it, each of them legal and admissible at its turn. -/
theorem Reachable.jobHistory {s : State} (h : Reachable s) (id : JobId) :
    JobHistory id (jobLog s.log id) (s.jobs.get id) :=
  jobHistory_of_replays h.inv.replays h.inv.logOk id

/-- The same holds of what an open transaction sees, with its own operations at the end. -/
theorem Reachable.jobHistory_view {s : State} (h : Reachable s) {t : TxnId} {T : Txn}
    (hT : s.txns t = some T) (id : JobId) :
    JobHistory id (jobLog (s.log ++ T.changes.map Change.event) id) ((T.view s).get id) :=
  jobHistory_of_replays (h.inv.replays.commit (h.inv.txn t T hT).consistent) (h.inv.txn t T hT).logOk id

/-- Where a list of actions leads from the migrated schema; a list with a refused action leads nowhere. -/
def stateAfter (clock : Timestamp) (acts : List Action) : State :=
  (run PgRelay.step (State.init clock) acts).getD (State.init clock)

/-- What a list of actions leads to is reachable. -/
theorem reachable_stateAfter (clock : Timestamp) (acts : List Action) :
    Reachable (stateAfter clock acts) := by
  refine ⟨clock, ?_⟩
  unfold stateAfter
  cases hrun : run PgRelay.step (State.init clock) acts with
  | none => exact .refl
  | some s => exact reaches_of_run hrun

end PgRelay
