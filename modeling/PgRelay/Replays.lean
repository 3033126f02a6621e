import PgRelay.EnqueueReports

/-!
# Replays

A replay inserts a copy of its source under the key `replay:<id>`, so that a second replay of the same
job finds the first one. The keys of replays and those of enqueues are in one namespace: a client that
enqueues such a key takes it, and the replay returns the client's job. Unless that happens, and unless
a purge deletes the source under a running replay or deletes the replay itself, every replay of a job
returns the same copy of it.
-/

namespace PgRelay

open RowStore

variable {s s' : State} {t : TxnId} {T : Txn} {effect : Effect} {job : NewJob} {src : JobId} {q : QueueName}

/-- Different jobs have different replay keys. -/
theorem replayKey_injective : Function.Injective replayKey := by
  intro a b h
  have hdigits := congrArg String.toList h
  simp only [replayKey, String.toList_append, List.append_cancel_left_eq, Nat.toString_eq_repr,
    Nat.toList_repr] at hdigits
  rw [← Nat.ofDigitChars_ten_toDigits (n := a), hdigits, Nat.ofDigitChars_ten_toDigits]

/-- The call has not come to its end. -/
def InsertPc.running : InsertPc → Bool
  | .finished _ _ | .failed => false
  | _ => true

/-- The transaction is replaying the job. -/
def Task.replaying (src : JobId) : Task → Bool
  | .insert job pc => job.replayedFromJobId = some src && pc.running
  | _ => false

/-- No client enqueues the replay key of the job in its queue, no commit deletes a replay of the job,
and none deletes the job itself while it is being replayed. -/
def sparesReplays (src : JobId) (q : QueueName) (s : State) : Action → Bool
  | .begin (.enqueue job) | .enqueueMore _ job => job.indexKey ≠ some (q, replayKey src)
  | .commit t => (s.txns t).all fun T =>
      (s.jobs.rows.all fun entry =>
        entry.row.replayedFromJobId ≠ some src || ((T.view s).get entry.id).isSome) &&
      (((T.view s).get src).isSome || (List.range s.nextTxn).all fun t' => (s.txns t').all fun T' =>
        !T'.task.replaying src)
  | _ => true

/-- The job is a copy of a logged one, under its replay key. -/
def CopyOf (log : List LogEntry) (source : JobId) (job : NewJob) : Prop :=
  job.idempotencyKey = some (replayKey source) ∧
    ∃ original, (source, original) ∈ insertions log ∧ job.contents = original.contents

/-- What is a copy by a log is one by every longer log. -/
theorem CopyOf.mono {log log' : List LogEntry} {source : JobId} (h : CopyOf log source job) (hsub : log ⊆ log') :
    CopyOf log' source job := by
  obtain ⟨hkey, original, hmem, hcontents⟩ := h
  obtain ⟨op, hop, hevent⟩ := mem_insertions.mp hmem
  exact ⟨hkey, original, mem_insertions.mpr ⟨op, hsub hop, hevent⟩, hcontents⟩

/-- Two copies of one job have the same index entry. -/
theorem CopyOf.indexKey_eq {log : List LogEntry} {source : JobId} {job' : NewJob} (hlog : LogOk log)
    (h : CopyOf log source job) (h' : CopyOf log source job') : job'.indexKey = job.indexKey := by
  obtain ⟨hkey, original, hmem, hcontents⟩ := h
  obtain ⟨hkey', original', hmem', hcontents'⟩ := h'
  obtain rfl := hlog.insertion_unique hmem hmem'
  have hqueue : job'.queueName = job.queueName :=
    congrArg JobContents.queueName (hcontents'.trans hcontents.symm)
  simp only [NewJob.indexKey, hkey, hkey', hqueue]

/-- What an insertion may have been asked for: a client's job with another key, or a copy of the job
that it replays. -/
structure Requested (src : JobId) (q : QueueName) (log : List LogEntry) (job : NewJob) : Prop where
  client : job.replayedFromJobId = none → job.indexKey ≠ some (q, replayKey src)
  replay : ∀ source, job.replayedFromJobId = some source → CopyOf log source job

/-- What is requested by a log is so by every longer log. -/
theorem Requested.mono {log log' : List LogEntry} (h : Requested src q log job) (hsub : log ⊆ log') :
    Requested src q log' job :=
  ⟨h.client, fun source hsource => (h.replay source hsource).mono hsub⟩

/-- Only a replay of the job has its replay key. -/
theorem Requested.source_eq {log : List LogEntry} (h : Requested src q log job)
    (hkey : job.indexKey = some (q, replayKey src)) : job.replayedFromJobId = some src := by
  cases hsource : job.replayedFromJobId with
  | none => exact absurd hkey (h.client hsource)
  | some source =>
    obtain ⟨hreplay, -⟩ := h.replay source hsource
    have heq : replayKey source = replayKey src := by
      simp only [NewJob.indexKey, hreplay, Option.map_some, Option.some.injEq, Prod.mk.injEq] at hkey
      exact hkey.2
    rw [replayKey_injective heq]

/-- Where an insertion stands: it inserts what may be asked for, and the job that it replays is there. -/
def ReplayTask (src : JobId) (q : QueueName) (s : State) (_ : TxnId) (T : Txn) : Prop :=
  ∀ job pc, T.task = .insert job pc → Requested src q s.log job ∧
    (job.replayedFromJobId = some src → pc.running = true → s.jobs.get src ≠ none)

/-- An insertion begins for an enqueue of the same session, or as the copy of a job that the
transaction sees. -/
theorem StepsBy.begin_insert {a : Action} (h : StepsBy s t T a effect) (htask : effect.task = .insert job .begin) :
    a = .enqueueMore t job ∧ job.replayedFromJobId = none ∨
      ∃ id force source, T.task = .replay id force .begin ∧ (T.view s).get id = some source ∧
        job = replayJob source.row (replayKey id) := by
  have hleads := h.steps.leadsTo
  rw [htask] at hleads
  cases hT : T.task with
  | insert job' pc =>
    rcases h with ⟨-, he⟩ | ⟨-, he⟩ | ⟨next, rfl, he⟩
    · simp only [statement, hT] at he
      cases insertStatement_moves he with
      | upsert htask' => cases htask'.symm.trans htask
      | insert hnew => cases (insertNew_eq_some hnew).1.symm.trans htask
      | _ => cases htask
    · simp [scanStatement, hT] at he
    · obtain ⟨done, pc, -, -, hnone, rfl⟩ := enqueueMore_cases he
      obtain ⟨rfl, -⟩ := Task.insert.inj htask
      exact .inl ⟨rfl, hnone⟩
  | replay id force pc =>
    rcases h with ⟨-, he⟩ | ⟨-, he⟩ | ⟨next, rfl, he⟩
    · simp only [statement, hT] at he
      obtain ⟨rfl, ⟨pc', -, rfl⟩ | ⟨source, hget, rfl⟩⟩ := replayStatement_cases he
      · cases htask
      · obtain ⟨rfl, -⟩ := Task.insert.inj htask
        exact .inr ⟨id, force, source, rfl, hget, rfl⟩
    · simp [scanStatement, hT] at he
    · simp [enqueueMore, hT] at he
  | _ =>
    rw [hT] at hleads
    obtain ⟨_, heq⟩ := hleads
    cases heq

/-- What a replay copies from the job that it has read. -/
theorem Reachable.copyOf_replayJob (h : Reachable s) {id : JobId} {source : JobEntry}
    (hget : s.jobs.get id = some source) : CopyOf s.log id (replayJob source.row (replayKey id)) := by
  obtain ⟨original, hmem, hcontents, -⟩ := h.inserted_of_get hget
  exact ⟨rfl, original, hmem, hcontents.symm⟩

/-- Every step of an insertion starts from a call that has not come to its end. -/
theorem InsertMove.running {pc : InsertPc} (h : InsertMove s t T job pc effect) : pc.running = true := by
  cases h <;> rfl

/-- Every step of a replay keeps what it has requested. -/
theorem ReplayTask.step {a : Action} (h : ReplayTask src q s t T) (hreach : Reachable s) (hT : s.txns t = some T)
    (hok : sparesReplays src q s a = true) (he : StepsBy s t T a effect) :
    ReplayTask src q (s.perform t T effect) t (T.after effect) := by
  intro job pc' htask
  rcases he.steps.insertMove_of_task htask with rfl | ⟨pc, hpc, hmove⟩
  · rcases he.begin_insert htask with ⟨rfl, hnone⟩ | ⟨id, force, source, hreplay, hget, rfl⟩
    · refine ⟨⟨fun _ => by simpa [sparesReplays] using hok, fun source hsource => ?_⟩, fun hsource => ?_⟩
      · cases hnone.symm.trans hsource
      · cases hnone.symm.trans hsource
    · have hwrites := hreach.writes hT
      rw [hreplay] at hwrites
      rw [Txn.view_eq_of_events s hwrites] at hget
      obtain rfl : source.id = id := Table.key_of_get hget
      refine ⟨⟨fun hnone => ?_, fun source' hsource => ?_⟩, fun hsource _ => ?_⟩
      · cases hnone
      · obtain rfl : source.id = source' := Option.some.inj hsource
        exact hreach.copyOf_replayJob hget
      · obtain rfl : source.id = src := Option.some.inj hsource
        change s.jobs.get source.id ≠ none
        simp [hget]
  · obtain ⟨hrequested, hsource⟩ := h job pc hpc
    exact ⟨hrequested, fun hreplay _ => hsource hreplay hmove.running⟩

/-- The condition on a commit, while a replay of the job is running. -/
theorem get_ne_none_of_sparesReplays {u : TxnId} {U : Txn} (hinv : Inv s) (hU : s.txns u = some U)
    (hT : s.txns t = some T) {pc : InsertPc} (htask : T.task = .insert job pc)
    (hsource : job.replayedFromJobId = some src) (hrunning : pc.running = true)
    (hok : sparesReplays src q s (.commit u) = true) : (U.view s).get src ≠ none := by
  simp only [sparesReplays, hU, Option.all_some, Bool.and_eq_true, Bool.or_eq_true, List.all_eq_true,
    List.mem_range] at hok
  rcases hok.2 with hsome | hnone
  · exact Option.isSome_iff_ne_none.mp hsome
  · have hcontra := hnone t (hinv.lt_nextTxn hT)
    simp [hT, htask, Task.replaying, hsource, hrunning] at hcontra

/-- The steps of others, too, keep what a replay has requested. -/
theorem ReplayTask.elsewhere {a : Action} (h : ReplayTask src q s t T) (hreach : Reachable s)
    (hok : sparesReplays src q s a = true) (hs : PgRelay.step s a = some s') (hT : s.txns t = some T)
    (he : Elsewhere s s' t T) : ReplayTask src q s' t T := by
  intro job pc htask
  obtain ⟨hrequested, hsource⟩ := h job pc htask
  obtain ⟨rest, hlog⟩ := he.log
  refine ⟨hrequested.mono (by simp [hlog]), fun hreplay hrunning => ?_⟩
  rcases jobs_of_step hs with ⟨u, U, rfl, hU, -, rfl⟩ | ⟨-, hjobs, -⟩
  · exact get_ne_none_of_sparesReplays hreach.inv hU hT htask hreplay hrunning hok
  · rw [hjobs]
    exact hsource hreplay hrunning

/-- While the replays of a job are spared, every insertion inserts what may be asked for. -/
theorem replayTask_of_reaches {clock : Timestamp}
    (h : ReachesUnder step (fun s a => sparesReplays src q s a = true) (State.init clock) s) :
    ∀ t T, s.txns t = some T → ReplayTask src q s t T := by
  refine ReachesUnder.txn_rule ?_ ?_ ?_ h
  · intro s request task hreach hok hr job pc htask
    obtain rfl : task = .insert job pc := htask
    cases request with
    | enqueue job' =>
      simp only [Request.task] at hr
      split_ifs at hr with hnone
      obtain ⟨rfl, -⟩ := Task.insert.inj (Option.some.inj hr)
      refine ⟨⟨fun _ => by simpa [sparesReplays] using hok, fun source hsource => ?_⟩, fun hsource => ?_⟩
      · cases hnone.symm.trans hsource
      · cases hnone.symm.trans hsource
    | call i op =>
      obtain ⟨x, -, hx⟩ := Option.map_eq_some_iff.mp hr
      cases hx
    | _ => cases hr
  · intro s t T a effect hreach hT hok he hold
    exact hold.step hreach hT hok he
  · intro s a s' t T hreach hok hs hT _ he hold
    exact hold.elsewhere hreach hok hs hT he

/-! ## The insertions -/

/-- The log inserts a replay of the job. -/
def ReplayLogged (src : JobId) (log : List LogEntry) (id : JobId) : Prop :=
  ∃ job, (id, job) ∈ insertions log ∧ job.replayedFromJobId = some src

/-- What has been inserted: only what may be asked for, never a replay of itself; a committed replay of
the job is still there while the job is, and there is only one. -/
structure ReplaysOk (src : JobId) (q : QueueName) (s : State) : Prop where
  log : ∀ id job, (id, job) ∈ insertions s.log → Requested src q s.log job ∧ job.replayedFromJobId ≠ some id
  txns : ∀ t T, s.txns t = some T → ∀ id job, (id, job) ∈ insertions (T.changes.map Change.event) →
    Requested src q s.log job ∧ job.replayedFromJobId ≠ some id ∧
      (job.replayedFromJobId = some src → ∀ id', ¬ ReplayLogged src s.log id')
  there : ∀ id, ReplayLogged src s.log id → s.jobs.get src = none ∨
    ∃ entry, s.jobs.get id = some entry ∧ entry.row.replayedFromJobId = some src
  once : ∀ id id', ReplayLogged src s.log id → ReplayLogged src s.log id' → id = id'

/-- The jobs that a transaction has inserted have their keys, which it holds. -/
theorem Reachable.indexKeyAt_of_inserted (h : Reachable s) (hT : s.txns t = some T) {id : JobId}
    (hmem : (id, job) ∈ insertions (T.changes.map Change.event)) :
    s.jobs.get id = none ∧ indexKeyAt (T.view s) id = job.indexKey ∧
      ∃ now, (T.view s).get id = some ⟨insertJob id now job, []⟩ := by
  obtain ⟨op, hop, hevent⟩ := mem_insertions.mp hmem
  obtain ⟨c, hc, rfl⟩ := List.mem_map.mp hop
  have hevents : .inserted id job ∈ T.events := List.mem_map.mpr ⟨c, hc, hevent⟩
  obtain ⟨job', pc, htask⟩ := (h.writes hT).of_inserted hevents
  obtain ⟨hnone, now, hget⟩ := (h.view_of_insert hT htask).2 id job hmem
  exact ⟨hnone, indexKeyAt_of_get hget, now, hget⟩

/-- A replay is inserted only if no replay of the job is there. -/
theorem ReplaysOk.not_logged (h : ReplaysOk src q s) (hreach : Reachable s) (hT : s.txns t = some T)
    {pc : InsertPc} (htask : T.task = .insert job pc) (hrequested : Requested src q s.log job)
    (hsource : job.replayedFromJobId = some src) (hthere : s.jobs.get src ≠ none)
    (hfree : ∀ p, job.indexKey = some p → ∀ id, indexKeyAt (T.view s) id ≠ some p) (id : JobId) :
    ¬ ReplayLogged src s.log id := by
  intro hlogged
  obtain ⟨entry, hget, -⟩ := (h.there id hlogged).resolve_left hthere
  obtain ⟨job', hmem, hreplay⟩ := hlogged
  obtain ⟨original, hmem', -, hkey⟩ := hreach.inserted_of_get hget
  obtain rfl := hreach.inv.logOk.insertion_unique hmem hmem'
  have hcopy := hrequested.replay src hsource
  have hsame := hcopy.indexKey_eq hreach.inv.logOk ((h.log id job' hmem).1.replay src hreplay)
  have hindex : job.indexKey = some (job.queueName, replayKey src) := by simp [NewJob.indexKey, hcopy.1]
  apply hfree _ hindex id
  rw [indexKeyAt_of_get ((hreach.view_of_insert hT htask).1 id entry hget), ← hkey, hsame, hindex]

/-- Every step of a transaction keeps the account of the replays. -/
theorem ReplaysOk.perform (h : ReplaysOk src q s) (hreach : Reachable s) (hT : s.txns t = some T)
    (htask : ReplayTask src q s t T) (he : Steps s t T effect) : ReplaysOk src q (s.perform t T effect) := by
  refine ⟨h.log, fun t' T' hT' id job hmem => ?_, h.there, h.once⟩
  by_cases hne : t' = t
  · subst hne
    obtain rfl : T.after effect = T' := by simpa [State.perform] using hT'
    simp only [Txn.after, List.map_append, insertions_append, List.mem_append] at hmem
    rcases hmem with hold | hnew
    · exact h.txns t' T hT id job hold
    · cases he.keyMove with
      | quiet _ hchanges =>
        have hnil : insertions (effect.changes.map Change.event) = [] := by
          refine insertions_eq_nil fun op hop => ?_
          obtain ⟨c, hc, rfl⟩ := List.mem_map.mp hop
          exact hchanges c hc
        rw [hnil] at hnew
        cases hnew
      | find _ hchanges => simp [hchanges, insertions] at hnew
      | reserve _ hchanges => simp [hchanges, insertions] at hnew
      | @insert job' _ hreserved htask' hchanges =>
        obtain ⟨rfl, rfl⟩ : id = s.nextJob ∧ job = job' := by simpa [hchanges, insertions] using hnew
        obtain ⟨pc, hpc, hmove⟩ := (he.insertMove_of_task htask').resolve_left (by simp)
        obtain ⟨hrequested, hthere⟩ := htask job pc hpc
        refine ⟨hrequested, fun hself => ?_, fun hsource => ?_⟩
        · obtain ⟨-, original, hlogged, -⟩ := hrequested.replay _ hself
          obtain ⟨op, hop, hevent⟩ := mem_insertions.mp hlogged
          exact (hreach.inv.ids s.nextJob le_rfl).2.2 op hop (by rw [hevent]; rfl)
        · exact h.not_logged hreach hT hpc hrequested hsource (hthere hsource hmove.running)
            fun p hp => (hreach.keysOk.reserved t' T hT job p hreserved hp).2
      | delete _ _ _ hchanges => simp [hchanges, insertions] at hnew
  · exact h.txns t' T' (by simpa [State.perform, hne] using hT') id job hmem

/-- Operations that are not those of a purge keep a job that is there, and what it replays. -/
theorem Evolves.keeps_source {events : List LogEntry} {start row : Option JobEntry}
    (h : jobDynamics.Evolves events start row) (hpurge : ∀ op ∈ events, op.event.isPurge = false)
    {before : JobEntry} (hstart : start = some before) : ∃ after, row = some after ∧
      after.row.replayedFromJobId = before.row.replayedFromJobId := by
  induction h with
  | nil row => exact ⟨before, hstart, rfl⟩
  | @snoc events op start middle last _ hacts ih =>
    obtain ⟨entry, rfl, hsame⟩ := ih (fun op' hop' => hpurge op' (List.mem_append_left _ hop')) hstart
    have hop := hpurge op (List.mem_append_right _ (List.mem_singleton_self _))
    cases hacts with
    | claimed _ hx =>
      exact ⟨_, rfl, (congrArg (fun x => x.job.replayedFromJobId) hx).trans hsame⟩
    | unlinked => cases hop
    | deleted _ => cases hop
    | _ => exact ⟨_, rfl, hsame⟩

/-- What a commit that deletes no replay of the job leaves of one. -/
theorem Reachable.there_of_commit (h : Reachable s) (hT : s.txns t = some T)
    (hcommit : T.task.committable = true) (hok : sparesReplays src q s (.commit t) = true) {id : JobId}
    {entry : JobEntry} (hget : s.jobs.get id = some entry) (hsource : entry.row.replayedFromJobId = some src) :
    (T.view s).get src = none ∨
      ∃ after, (T.view s).get id = some after ∧ after.row.replayedFromJobId = some src := by
  by_cases hpurge : ∃ args deleted, T.task = .purge args (.finished deleted)
  · obtain ⟨args, deleted, htask⟩ := hpurge
    obtain ⟨gone, hpurging, -⟩ := h.purgeFollows hT args _ htask
    obtain ⟨hmem, rfl⟩ := (Table.get_eq_some_iff _ _ _).mp hget
    rcases hpurging.rows _ entry hget with hgone | hsame | ⟨hunlinked, e, he, hreplay⟩
    · have hnone := (hpurging.deleted entry hgone).2.2.1
      simp only [sparesReplays, hT, Option.all_some, Bool.and_eq_true, List.all_eq_true] at hok
      have hkept := hok.1 entry hmem
      simp [hsource, hnone] at hkept
    · exact .inr ⟨entry, hsame, hsource⟩
    · obtain rfl : e.id = src := Option.some.inj (hreplay.symm.trans hsource)
      exact .inl (hpurging.deleted e he).2.2.1
  · have hevents : ∀ op ∈ (T.changes.map Change.event).filter (jobDynamics.target · = id),
        op.event.isPurge = false := by
      intro op hop
      by_contra hop'
      obtain ⟨c, hc, rfl⟩ := List.mem_map.mp (List.mem_filter.mp hop).1
      refine hpurge (h.finished_of_isPurge hT hcommit (e := c.event.event) ?_ (Bool.eq_true_of_not_eq_false hop'))
      exact List.mem_map.mpr ⟨c, hc, rfl⟩
    have hevolves := (h.inv.txn t T hT).consistent.evolves id
    obtain ⟨after, hafter, hsame⟩ := Evolves.keeps_source hevolves hevents hget
    exact .inr ⟨after, hafter, hsame.trans hsource⟩

/-- Two open transactions do not both insert a replay of the job. -/
theorem Reachable.not_both_inserted (h : Reachable s) (hT : s.txns t = some T) {t' : TxnId} {T' : Txn}
    (hT' : s.txns t' = some T') (hne : t' ≠ t) {id id' : JobId} {job' : NewJob}
    (hmem : (id, job) ∈ insertions (T.changes.map Change.event))
    (hmem' : (id', job') ∈ insertions (T'.changes.map Change.event)) (hcopy : CopyOf s.log src job)
    (hcopy' : CopyOf s.log src job') : False := by
  obtain ⟨hnone, hkey, -⟩ := h.indexKeyAt_of_inserted hT hmem
  obtain ⟨hnone', hkey', -⟩ := h.indexKeyAt_of_inserted hT' hmem'
  have hindex : job.indexKey = some (job.queueName, replayKey src) := by simp [NewJob.indexKey, hcopy.1]
  rw [hindex] at hkey
  rw [hcopy.indexKey_eq h.inv.logOk hcopy', hindex] at hkey'
  have hheld := h.keysOk.inserted t T hT id _ hkey hnone
  have hheld' := h.keysOk.inserted t' T' hT' id' _ hkey' hnone'
  exact hne (Option.some.inj (hheld'.symm.trans hheld))

/-- A replay in the log is one of a logged job. -/
theorem ReplaysOk.source_logged (h : ReplaysOk src q s) {id : JobId} (hlogged : ReplayLogged src s.log id) :
    ∃ c ∈ s.log, c.event.jobId = src := by
  obtain ⟨job, hmem, hsource⟩ := hlogged
  obtain ⟨-, original, horiginal, -⟩ := (h.log id job hmem).1.replay src hsource
  obtain ⟨op, hop, hevent⟩ := mem_insertions.mp horiginal
  exact ⟨op, hop, by rw [hevent]; rfl⟩

/-- A commit adds the insertions of its transaction. -/
theorem mem_insertions_commit {id : JobId} (h : (id, job) ∈ insertions (s.commit t T).log) :
    (id, job) ∈ insertions s.log ∨ (id, job) ∈ insertions (T.changes.map Change.event) := by
  simpa [State.commit] using h

/-- A commit that spares the replays of the job keeps the account of them. -/
theorem ReplaysOk.commit (h : ReplaysOk src q s) (hreach : Reachable s) (hT : s.txns t = some T)
    (hcommit : T.task.committable = true) (hok : sparesReplays src q s (.commit t) = true) :
    ReplaysOk src q (s.commit t T) := by
  have hsub : s.log ⊆ (s.commit t T).log := List.subset_append_left _ _
  have hcopy {t' : TxnId} {T' : Txn} (hT' : s.txns t' = some T') {id : JobId} {job : NewJob}
      (hmem : (id, job) ∈ insertions (T'.changes.map Change.event)) (hsource : job.replayedFromJobId = some src) :
      CopyOf s.log src job :=
    (h.txns t' T' hT' id job hmem).1.replay src hsource
  refine ⟨fun id job hmem => ?_, fun t' T' hopen id job hmem => ?_, fun id hlogged => ?_, fun id id' hid hid' => ?_⟩
  · rcases mem_insertions_commit hmem with hold | hnew
    · obtain ⟨hrequested, hself⟩ := h.log id job hold
      exact ⟨hrequested.mono hsub, hself⟩
    · obtain ⟨hrequested, hself, -⟩ := h.txns t T hT id job hnew
      exact ⟨hrequested.mono hsub, hself⟩
  · obtain ⟨hne, hT'⟩ := txns_close (t := t) hopen
    obtain ⟨hrequested, hself, hnot⟩ := h.txns t' T' hT' id job hmem
    refine ⟨hrequested.mono hsub, hself, fun hsource id' ⟨job', hmem', hsource'⟩ => ?_⟩
    rcases mem_insertions_commit hmem' with hold | hnew
    · exact hnot hsource id' ⟨job', hold, hsource'⟩
    · exact hreach.not_both_inserted hT hT' hne hnew hmem (hcopy hT hnew hsource') (hcopy hT' hmem hsource)
  · obtain ⟨job, hmem, hsource⟩ := hlogged
    change (T.view s).get src = none ∨ ∃ entry, (T.view s).get id = some entry ∧ _
    rcases mem_insertions_commit hmem with hold | hnew
    · have hlogged : ReplayLogged src s.log id := ⟨job, hold, hsource⟩
      rcases h.there id hlogged with hgone | ⟨entry, hget, hreplay⟩
      · exact .inl ((hreach.inv.txn t T hT).view_eq_none (h.source_logged hlogged) hgone)
      · exact hreach.there_of_commit hT hcommit hok hget hreplay
    · obtain ⟨-, -, now, hget⟩ := hreach.indexKeyAt_of_inserted hT hnew
      exact .inr ⟨_, hget, hsource⟩
  · obtain ⟨job, hmem, hsource⟩ := hid
    obtain ⟨job', hmem', hsource'⟩ := hid'
    rcases mem_insertions_commit hmem with hold | hnew <;> rcases mem_insertions_commit hmem' with hold' | hnew'
    · exact h.once id id' ⟨job, hold, hsource⟩ ⟨job', hold', hsource'⟩
    · exact absurd ⟨job, hold, hsource⟩ ((h.txns t T hT id' job' hnew').2.2 hsource' id)
    · exact absurd ⟨job', hold', hsource'⟩ ((h.txns t T hT id job hnew).2.2 hsource id')
    · -- Both have the replay key in one view.
      have hkey := (hcopy hT hnew hsource).indexKey_eq hreach.inv.logOk (hcopy hT hnew' hsource')
      have hindex : job.indexKey = some (job.queueName, replayKey src) := by
        simp [NewJob.indexKey, (hcopy hT hnew hsource).1]
      apply hreach.keysOk.views t T hT id id' _ ((hreach.indexKeyAt_of_inserted hT hnew).2.1.trans hindex)
      rw [(hreach.indexKeyAt_of_inserted hT hnew').2.1, hkey, hindex]

/-- Every action that spares the replays of the job keeps the account of them. -/
theorem ReplaysOk.step {a : Action} (h : ReplaysOk src q s) (hreach : Reachable s)
    (htasks : ∀ t T, s.txns t = some T → ReplayTask src q s t T) (hok : sparesReplays src q s a = true)
    (hs : PgRelay.step s a = some s') : ReplaysOk src q s' := by
  rcases step_cases hs with ⟨elapsed, -, rfl⟩ | ⟨request, task, -, -, rfl⟩ |
    ⟨t, T, effect, hT, he, rfl⟩ | ⟨t, T, rfl, hT, hcommit, rfl⟩ | ⟨t, T, -, -, rfl⟩
  · exact ⟨h.log, h.txns, h.there, h.once⟩
  · refine ⟨h.log, fun t T hT id job hmem => ?_, h.there, h.once⟩
    by_cases hne : t = s.nextTxn
    · obtain rfl : (⟨s.clock, task, [], []⟩ : Txn) = T := by simpa [State.open, hne] using hT
      cases hmem
    · exact h.txns t T (by simpa [State.open, hne] using hT) id job hmem
  · exact h.perform hreach hT (htasks t T hT) (StepsBy.steps he)
  · exact h.commit hreach hT hcommit hok
  · exact ⟨h.log, fun t' T' hT' => h.txns t' T' (txns_close hT').2, h.there, h.once⟩

/-- While the replays of a job are spared, every state reached accounts for them. -/
theorem replaysOk_of_reaches {clock : Timestamp}
    (h : ReachesUnder step (fun s a => sparesReplays src q s a = true) (State.init clock) s) :
    ReplaysOk src q s := by
  induction h with
  | refl =>
    refine ⟨fun id job hmem => ?_, fun t T hT => ?_, fun id ⟨job, hmem, _⟩ => ?_, fun id id' ⟨job, hmem, _⟩ => ?_⟩
    · cases hmem
    · cases hT
    · cases hmem
    · cases hmem
  | tail hrun hlast ih =>
    obtain ⟨a, hok, hs⟩ := hlast
    exact ih.step ⟨clock, ReachesUnder.reaches hrun⟩ (replayTask_of_reaches hrun) hok hs

/-! ## What a replay returns -/

/-- A copy of a job has the contents of its row. -/
theorem CopyOf.contents_eq (h : CopyOf s.log src job) (hreach : Reachable s) {source : JobEntry}
    (hget : s.jobs.get src = some source) : job.contents = source.row.contents := by
  obtain ⟨-, original, hmem, hcontents⟩ := h
  obtain ⟨original', hmem', hcontents', -⟩ := hreach.inserted_of_get hget
  obtain rfl := hreach.inv.logOk.insertion_unique hmem hmem'
  exact hcontents.trans hcontents'

/-- The row is a copy of the source, and linked to it. -/
structure ReplayRow (src : JobId) (source copy : JobEntry) : Prop where
  ne : copy.id ≠ src
  linked : copy.row.replayedFromJobId = some src
  contents : copy.row.contents = source.row.contents

/-- A committed job with the replay key is the replay, as long as the source is there. -/
theorem ReplaysOk.replayRow_of_get (h : ReplaysOk src q s) (hreach : Reachable s) {source copy : JobEntry}
    (hsource : s.jobs.get src = some source) (hcopy : s.jobs.get copy.id = some copy)
    (hkey : copy.row.indexKey = some (q, replayKey src)) : ReplayRow src source copy := by
  obtain ⟨job, hmem, hcontents, hindex⟩ := hreach.inserted_of_get hcopy
  obtain ⟨hrequested, hself⟩ := h.log copy.id job hmem
  have hreplay := hrequested.source_eq (hindex.trans hkey)
  refine ⟨?_, ?_, hcontents.symm.trans ((hrequested.replay src hreplay).contents_eq hreach hsource)⟩
  · intro heq
    exact hself (hreplay.trans (congrArg some heq.symm))
  · rcases h.there copy.id ⟨job, hmem, hreplay⟩ with hgone | ⟨entry, hget, hlinked⟩
    · cases hgone.symm.trans hsource
    · obtain rfl := Option.some.inj (hcopy.symm.trans hget)
      exact hlinked

/-- A job that the transaction has inserted itself as a replay is one. -/
theorem ReplaysOk.replayRow_of_inserted (h : ReplaysOk src q s) (hreach : Reachable s) (hT : s.txns t = some T)
    {source : JobEntry} (hsource : s.jobs.get src = some source) {id : JobId}
    (hmem : (id, job) ∈ insertions (T.changes.map Change.event))
    (hkey : job.indexKey = some (q, replayKey src)) (now : Timestamp) :
    ReplayRow src source ⟨insertJob id now job, []⟩ := by
  obtain ⟨hrequested, hself, -⟩ := h.txns t T hT id job hmem
  have hreplay := hrequested.source_eq hkey
  refine ⟨?_, hreplay, (hrequested.replay src hreplay).contents_eq hreach hsource⟩
  rintro rfl
  exact hself hreplay

/-- A job with the replay key that an enqueueing transaction sees is the replay. -/
theorem ReplaysOk.replayRow_of_view (h : ReplaysOk src q s) (hreach : Reachable s) (hT : s.txns t = some T)
    {pc : InsertPc} (htask : T.task = .insert job pc) {source copy : JobEntry}
    (hsource : s.jobs.get src = some source) (hcopy : (T.view s).get copy.id = some copy)
    (hkey : copy.row.indexKey = some (q, replayKey src)) : ReplayRow src source copy := by
  obtain ⟨hcommitted, hown⟩ := hreach.view_of_insert hT htask
  cases hget : s.jobs.get copy.id with
  | some entry =>
    obtain rfl := Option.some.inj (hcopy.symm.trans (hcommitted _ entry hget))
    exact h.replayRow_of_get hreach hsource hget hkey
  | none =>
    obtain ⟨job', hmem, hindex⟩ := hreach.inserted_of_view hT hcopy
    rw [insertions_append, List.mem_append] at hmem
    rcases hmem with hlogged | hmem
    · obtain ⟨op, hop, hevent⟩ := mem_insertions.mp hlogged
      have hnone := (hreach.inv.txn t T hT).view_eq_none ⟨op, hop, by rw [hevent]; rfl⟩ hget
      cases hnone.symm.trans hcopy
    · obtain ⟨-, now, hrow⟩ := hown _ job' hmem
      have hrow := Option.some.inj (hcopy.symm.trans hrow)
      rw [hrow]
      exact h.replayRow_of_inserted hreach hT hsource hmem (hindex.trans hkey) now

/-- The statement with which a replay returns makes its transaction see the replay. -/
theorem ReplaysOk.returns (h : ReplaysOk src q s) (hreach : Reachable s) (hT : s.txns t = some T)
    (hstands : ReplayTask src q s t T) {pc : InsertPc} (htask : T.task = .insert job pc)
    (hreplay : job.replayedFromJobId = some src) (hqueue : job.queueName = q)
    (he : statement s t T = some effect) {id : JobId} {created : Bool}
    (hreturn : effect.task = .insert job (.finished id created)) :
    ∃ source copy, s.jobs.get src = some source ∧ copy.id = id ∧
      ((T.after effect).view (s.perform t T effect)).get id = some copy ∧ ReplayRow src source copy := by
  have hok := Steps.ok (.inl he) hreach.inv (hreach.inv.txn t T hT)
  simp only [statement, htask] at he
  have hmove := insertStatement_moves he
  obtain ⟨hrequested, hthere⟩ := hstands job pc htask
  obtain ⟨source, hsource⟩ := Option.ne_none_iff_exists'.mp (hthere hreplay hmove.running)
  have hcopy := hrequested.replay src hreplay
  have hkey : job.indexKey = some (q, replayKey src) := by simp [NewJob.indexKey, hcopy.1, hqueue]
  cases hmove with
  | upsert htask' => cases htask'.symm.trans hreturn
  | insert hnew =>
    obtain ⟨htask', -, hchanges⟩ := insertNew_eq_some hnew
    obtain ⟨rfl, -⟩ := InsertPc.finished.inj (Task.insert.inj (htask'.symm.trans hreturn)).2
    refine ⟨source, ⟨insertJob s.nextJob T.now job, []⟩, hsource, rfl, ?_, ?_⟩
    · rw [hok.get_view hchanges]
      exact if_pos rfl
    · refine ⟨?_, hreplay, hcopy.contents_eq hreach hsource⟩
      rintro rfl
      cases (hreach.inv.ids _ le_rfl).1.symm.trans hsource
  | @find p entry hindex hget hfound =>
    obtain ⟨rfl, -⟩ := InsertPc.finished.inj (Task.insert.inj hreturn).2
    obtain rfl := Option.some.inj (hkey.symm.trans hindex)
    refine ⟨source, entry, hsource, rfl, ?_, h.replayRow_of_view hreach hT htask hsource hget hfound⟩
    rw [view_perform_of_nil rfl]
    exact hget
  | _ => cases hreturn

/-- Every report is one of what may be asked for. -/
structure ReportsRequested (src : JobId) (q : QueueName) (s : State) (reports : Reports) : Prop where
  committed : ∀ r ∈ reports.committed, Requested src q s.log r.job
  pending : ∀ t, ∀ r ∈ reports.pending t, Requested src q s.log r.job

/-- Where the reports come from after an action. -/
theorem mem_noteReports (reports : Reports) (s s' : State) (a : Action) :
    (∀ r ∈ (noteReports reports s a s').committed, r ∈ reports.committed ∨ ∃ t, r ∈ reports.pending t) ∧
      ∀ t, ∀ r ∈ (noteReports reports s a s').pending t, r ∈ reports.pending t ∨ r ∈ s'.reported t := by
  have hupdate {u t : TxnId} {new : List Report} {r : Report}
      (hr : r ∈ Function.update reports.pending u new t) : r ∈ reports.pending t ∨ t = u ∧ r ∈ new := by
    by_cases ht : t = u
    · subst ht
      exact .inr ⟨rfl, by simpa using hr⟩
    · exact .inl (by simpa [ht] using hr)
  have hsteps {u t : TxnId} {r : Report}
      (hr : r ∈ Function.update reports.pending u (reports.pending u ++ s'.reported u) t) :
      r ∈ reports.pending t ∨ r ∈ s'.reported t := by
    rcases hupdate hr with hold | ⟨rfl, hnew⟩
    · exact .inl hold
    · exact List.mem_append.mp hnew
  have hclosed {u t : TxnId} {r : Report} (hr : r ∈ Function.update reports.pending u [] t) :
      r ∈ reports.pending t ∨ r ∈ s'.reported t := by
    rcases hupdate hr with hold | ⟨-, hnew⟩
    · exact .inl hold
    · cases hnew
  cases a with
  | tick | begin => exact ⟨fun r hr => .inl hr, fun t r hr => .inl hr⟩
  | advance | scan | enqueueMore => exact ⟨fun r hr => .inl hr, fun t r hr => hsteps hr⟩
  | commit u =>
    refine ⟨fun r hr => ?_, fun t r hr => hclosed hr⟩
    exact (List.mem_append.mp hr).imp_right fun hold => ⟨u, hold⟩
  | rollback => exact ⟨fun r hr => .inl hr, fun t r hr => hclosed hr⟩

/-- A report is one of the job that was asked for. -/
theorem mem_reported {r : Report} (h : r ∈ s.reported t) :
    ∃ T, s.txns t = some T ∧ T.task = .insert r.job (.finished r.id r.created) := by
  unfold State.reported at h
  cases hT : s.txns t with
  | none =>
    rw [hT] at h
    cases h
  | some T =>
    rw [hT] at h
    change r ∈ T.task.report at h
    unfold Task.report at h
    split at h
    · rename_i job id created htask
      obtain rfl := List.mem_singleton.mp h
      exact ⟨T, rfl, htask⟩
    · cases h

/-- Every action keeps the reports of replays those of what was requested. -/
theorem ReportsRequested.step {reports : Reports} {a : Action} (h : ReportsRequested src q s reports)
    (hs : PgRelay.step s a = some s') (htasks : ∀ t T, s'.txns t = some T → ReplayTask src q s' t T) :
    ReportsRequested src q s' (noteReports reports s a s') := by
  have hsub : s.log ⊆ s'.log := by
    rcases jobs_of_step hs with ⟨t, T, -, -, -, rfl⟩ | ⟨-, -, hlog⟩
    · exact List.subset_append_left _ _
    · rw [hlog]
      exact List.Subset.refl _
  obtain ⟨hcommitted, hpending⟩ := mem_noteReports reports s s' a
  refine ⟨fun r hr => ?_, fun t r hr => ?_⟩
  · rcases hcommitted r hr with hold | ⟨t, hold⟩
    · exact (h.committed r hold).mono hsub
    · exact (h.pending t r hold).mono hsub
  · rcases hpending t r hr with hold | hnew
    · exact (h.pending t r hold).mono hsub
    · obtain ⟨T, hT, htask⟩ := mem_reported hnew
      exact (htasks t T hT r.job _ htask).1

/-- A job that is linked to the source has been inserted as its replay. -/
theorem Reachable.replayLogged_of_get (h : Reachable s) {id : JobId} {entry : JobEntry}
    (hget : s.jobs.get id = some entry) (hlinked : entry.row.replayedFromJobId = some src) :
    ReplayLogged src s.log id := by
  have hhistory := h.jobHistory id
  rw [hget] at hhistory
  -- An update leaves the link as it is or clears it.
  obtain ⟨op, hop, id', job, hevent, hsame⟩ := hhistory.invariant (I := fun log entry =>
    ∃ op ∈ log, ∃ id' job, op.event = .inserted id' job ∧
      (entry.row.replayedFromJobId = none ∨ entry.row.replayedFromJobId = job.replayedFromJobId))
    (fun op entry hacts => by
      cases hacts with
      | inserted hmax => exact ⟨_, List.mem_singleton_self _, _, _, rfl, .inr rfl⟩)
    (fun log op before after _ _ hacts ⟨op', hop', id', job, hevent, hsame⟩ => by
      refine ⟨op', List.mem_append_left _ hop', id', job, hevent, ?_⟩
      cases hacts with
      | claimed _ hx =>
        have hlink := congrArg (fun x => x.job.replayedFromJobId) hx
        exact hsame.imp (fun hnone => hlink.trans hnone) fun hjob => hlink.trans hjob
      | unlinked => exact .inl rfl
      | _ => exact hsame)
  obtain ⟨hmem, hid⟩ := List.mem_filter.mp hop
  rw [hevent] at hid
  obtain rfl : id' = id := of_decide_eq_true hid
  refine ⟨job, mem_insertions.mpr ⟨op, hmem, hevent⟩, ?_⟩
  rcases hsame with hnone | hjob
  · cases hnone.symm.trans hlinked
  · exact hjob.symm.trans hlinked

/-- What replays of a job of the queue do: each returns a row of its transaction's view that is the
replay of the job, all that have been committed return the same one, no other job has ever been
inserted as a replay of it or is linked to it, and the transactions of replays change no job. -/
structure ReplaysSource (src : JobId) (q : QueueName) (s : State) (reports : Reports) : Prop where
  returns : ∀ t T job pc effect id created, s.txns t = some T → T.task = .insert job pc →
    job.replayedFromJobId = some src → job.queueName = q → statement s t T = some effect →
    effect.task = .insert job (.finished id created) → ∃ source copy, s.jobs.get src = some source ∧
      copy.id = id ∧ ((T.after effect).view (s.perform t T effect)).get id = some copy ∧ ReplayRow src source copy
  committed : ∀ r ∈ reports.committed, r.job.replayedFromJobId = some src → r.job.queueName = q →
    ∀ source, s.jobs.get src = some source → ∃ copy, s.jobs.get r.id = some copy ∧ ReplayRow src source copy
  same : ∀ r ∈ reports.committed, ∀ r' ∈ reports.committed, r.job.replayedFromJobId = some src →
    r'.job.replayedFromJobId = some src → r.job.queueName = q → r'.job.queueName = q → r'.id = r.id
  once : ∀ id id', ReplayLogged src s.log id → ReplayLogged src s.log id' → id = id'
  logged : ∀ id entry, s.jobs.get id = some entry → entry.row.replayedFromJobId = some src →
    ReplayLogged src s.log id
  unchanged : ∀ t T, s.txns t = some T →
    ((∃ job pc, T.task = .insert job pc) ∨ ∃ id force pc, T.task = .replay id force pc) →
    ∀ id entry, s.jobs.get id = some entry → (T.view s).get id = some entry

/-- The job of a committed report of a replay has been inserted as one. -/
theorem ReplaysOk.replayLogged_of_report {reports : Reports} (h : ReplaysOk src q s) (hok : ReportsOk s reports)
    (hrequested : ReportsRequested src q s reports) {r : Report} (hr : r ∈ reports.committed)
    (hreplay : r.job.replayedFromJobId = some src) (hqueue : r.job.queueName = q) :
    ∃ job, (r.id, job) ∈ insertions s.log ∧ job.indexKey = some (q, replayKey src) ∧
      job.replayedFromJobId = some src := by
  obtain ⟨job, hmem, hkey⟩ := (hok.committed r hr).inserted
  have hreported := ((hrequested.committed r hr).replay src hreplay).1
  have hindex : job.indexKey = some (q, replayKey src) := by
    rw [hkey]
    simp [NewJob.indexKey, hreported, hqueue]
  exact ⟨job, hmem, hindex, (h.log r.id job hmem).1.source_eq hindex⟩

/-- In every run in which no client takes the replay key of a job, no purge deletes its replay and none
deletes the job under a running replay, every replay of the job returns the one replay of it. -/
theorem replays_source {clock : Timestamp} {src : JobId} {q : QueueName} {reports : Reports}
    (h : ReachesUnder (observed step noteReports) (fun sr a => sparesReplays src q sr.1 a = true)
      (State.init clock, Reports.init) (s, reports)) : ReplaysSource src q s reports := by
  have hrun := ReachesUnder.of_observed (fun s a => sparesReplays src q s a = true) h
  obtain ⟨-, hreports, hrequested⟩ : ReachesUnder step (fun s a => sparesReplays src q s a = true)
      (State.init clock) s ∧ ReportsOk s reports ∧ ReportsRequested src q s reports := by
    refine h.observed_invariant (fun s a => sparesReplays src q s a = true)
      (I := fun s reports => ReachesUnder step (fun s a => sparesReplays src q s a = true) (State.init clock) s ∧
        ReportsOk s reports ∧ ReportsRequested src q s reports) ⟨.refl, ?_, ?_⟩ ?_
    · constructor <;> simp [State.init, Reports.init, insertions, creations]
    · constructor <;> simp [Reports.init]
    · rintro s reports a s' ⟨hrun, hreports, hrequested⟩ hok hs
      have hrun' := Relation.ReflTransGen.tail hrun ⟨a, hok, hs⟩
      exact ⟨hrun', hreports.step ⟨clock, hrun.reaches⟩ hs, hrequested.step hs (replayTask_of_reaches hrun')⟩
  have hreach : Reachable s := ⟨clock, hrun.reaches⟩
  have hok := replaysOk_of_reaches hrun
  refine ⟨?_, ?_, ?_, hok.once, fun id entry => hreach.replayLogged_of_get, ?_⟩
  · intro t T job pc effect id created hT htask hreplay hqueue he hreturn
    exact hok.returns hreach hT (replayTask_of_reaches hrun t T hT) htask hreplay hqueue he hreturn
  · intro r hr hreplay hqueue source hsource
    obtain ⟨job, hmem, hindex, hlinked⟩ := hok.replayLogged_of_report hreports hrequested hr hreplay hqueue
    rcases hok.there r.id ⟨job, hmem, hlinked⟩ with hgone | ⟨copy, hcopy, -⟩
    · cases hgone.symm.trans hsource
    · obtain ⟨job', hmem', -, hkey⟩ := hreach.inserted_of_get hcopy
      obtain rfl := hreach.inv.logOk.insertion_unique hmem hmem'
      have hid : copy.id = r.id := Table.key_of_get hcopy
      exact ⟨copy, hcopy, hok.replayRow_of_get hreach hsource (hid ▸ hcopy) (hkey.symm.trans hindex)⟩
  · intro r hr r' hr' hreplay hreplay' hqueue hqueue'
    obtain ⟨job, hmem, -, hlinked⟩ := hok.replayLogged_of_report hreports hrequested hr hreplay hqueue
    obtain ⟨job', hmem', -, hlinked'⟩ := hok.replayLogged_of_report hreports hrequested hr' hreplay' hqueue'
    exact hok.once r'.id r.id ⟨job', hmem', hlinked'⟩ ⟨job, hmem, hlinked⟩
  · rintro t T hT (⟨job, pc, htask⟩ | ⟨id', force, pc, htask⟩) id entry hget
    · exact (hreach.view_of_insert hT htask).1 id entry hget
    · have hwrites := hreach.writes hT
      rw [htask] at hwrites
      rw [Txn.view_eq_of_events s hwrites]
      exact hget

/-- Two overlapping replays of a cancelled job. -/
def overlappingReplays : List Action :=
  transaction 0 (.enqueue (handlerJob "mail" 2)) 5 ++ transaction 1 (.cancel 0) 3 ++
    [.begin (.replay 0 false), .begin (.replay 0 false)] ++ List.replicate 3 (.advance 3) ++
    List.replicate 6 (.advance 2) ++ .commit 2 :: List.replicate 2 (.advance 3) ++ [.commit 3]

/-- Two overlapping replays of one job, of which the first one creates the replay. -/
theorem replays_source_overlappingReplays : ∃ s reports,
    runChecked (observed step noteReports) (fun sr a => sparesReplays 0 "mail" sr.1 a)
      (State.init 0, Reports.init) overlappingReplays = some (s, reports) ∧
      (reports.committed.map fun r => (r.job.replayedFromJobId, r.id, r.created)) =
        [(none, 0, true), (some 0, 1, true), (some 0, 1, false)] ∧
      ReplaysSource 0 "mail" s reports := by
  have hrun : (runChecked (observed step noteReports) (fun sr a => sparesReplays 0 "mail" sr.1 a)
      (State.init 0, Reports.init) overlappingReplays).map
        (fun sr => sr.2.committed.map fun r => (r.job.replayedFromJobId, r.id, r.created)) =
          some [(none, 0, true), (some 0, 1, true), (some 0, 1, false)] := by
    decide +kernel
  obtain ⟨⟨s, reports⟩, hs, hreports⟩ := Option.map_eq_some_iff.mp hrun
  exact ⟨s, reports, hs, hreports, replays_source (reachesUnder_of_runChecked (fun _ _ h => h) hs)⟩

/-- A client has enqueued a job under the key with which the first job is replayed. -/
def takenReplayKey : List Action :=
  transaction 0 (.enqueue (handlerJob "mail" 2)) 5 ++ transaction 1 (.enqueue (keyedJob "mail" "replay:0")) 5 ++
    transaction 2 (.cancel 0) 3 ++ transaction 3 (.replay 0 false) 5

/-- A client has enqueued a job under the key of the replay, which then returns this job. -/
theorem not_replaysSource_takenReplayKey : ¬ ∀ clock src q s reports,
    Reaches (observed step noteReports) (State.init clock, Reports.init) (s, reports) →
      ReplaysSource src q s reports := by
  intro hall
  have hrun : (run (observed step noteReports) (State.init 0, Reports.init) takenReplayKey).map
      (fun sr => (sr.2.committed.map fun r => (r.job.replayedFromJobId, r.job.queueName, r.id),
        (sr.1.jobs.get 0).isSome, (sr.1.jobs.get 1).map fun entry => entry.row.replayedFromJobId)) =
        some ([(none, "mail", 0), (none, "mail", 1), (some 0, "mail", 1)], true, some none) := by
    decide +kernel
  obtain ⟨⟨s, reports⟩, hs, hend⟩ := Option.map_eq_some_iff.mp hrun
  simp only [Prod.mk.injEq] at hend
  obtain ⟨hreports, hsource, hcopy⟩ := hend
  have hreplays := hall 0 0 "mail" s reports (reaches_of_run hs)
  obtain ⟨source, hsource⟩ := Option.isSome_iff_exists.mp hsource
  obtain ⟨entry, hget, hunlinked⟩ := Option.map_eq_some_iff.mp hcopy
  have hmem : (some 0, "mail", 1) ∈ reports.committed.map fun r =>
      (r.job.replayedFromJobId, r.job.queueName, r.id) := by
    rw [hreports]
    decide
  obtain ⟨r, hr, heq⟩ := List.mem_map.mp hmem
  obtain ⟨hreplay, hqueue, hid⟩ : r.job.replayedFromJobId = some 0 ∧ r.job.queueName = "mail" ∧ r.id = 1 := by
    simpa using heq
  obtain ⟨copy, hcopy, hrow⟩ := hreplays.committed r hr hreplay hqueue source hsource
  rw [hid, hget] at hcopy
  obtain rfl := Option.some.inj hcopy
  cases hunlinked.symm.trans hrow.linked

end PgRelay
