import PgRelay.Replays

/-!
# References between rows

A job names the queue it is in and, if it is a replay, the job it replays. `insert_job` creates the queue
before it inserts the job, and no queue is ever deleted. A replay refers to a job that may be purged at
any moment: the check of its foreign key keeps the source from being deleted until the insertion has been
committed, and a purge that comes first clears the references of the replays it finds. So no committed
reference dangles, whatever runs at the same time, and replays of replays never lead back to themselves.
-/

namespace PgRelay

open RowStore

variable {s s' : State} {t : TxnId} {T : Txn} {effect : Effect} {id source : JobId}

/-- The job is the replay of another one. -/
def RefersTo (jobs : JobTable) (id source : JobId) : Prop :=
  ∃ entry, jobs.get id = some entry ∧ entry.row.replayedFromJobId = some source

/-- The transaction has deleted the job. -/
def Txn.Deletes (T : Txn) (id : JobId) : Prop := ∃ args, .deleted id args ∈ T.events

/-- The transaction has inserted the job as the replay of another one. -/
def Txn.InsertsReplay (T : Txn) (id source : JobId) : Prop :=
  ∃ job, .inserted id job ∈ T.events ∧ job.replayedFromJobId = some source

/-! ## What a transaction makes of the references -/

/-- Only an insertion gives a job its reference. -/
theorem JobActs.refers {op : LogEntry} {before : Option JobEntry} {after : JobEntry}
    (h : JobActs op before (some after)) (hafter : after.row.replayedFromJobId = some source) :
    (∃ entry, before = some entry ∧ entry.row.replayedFromJobId = some source) ∨
      ∃ job, op.event = .inserted op.event.jobId job ∧ job.replayedFromJobId = some source := by
  cases h with
  | inserted => exact .inr ⟨_, rfl, hafter⟩
  | @claimed _ _ _ _ entry _ hx =>
    exact .inl ⟨entry, rfl, (congrArg (fun x => x.job.replayedFromJobId) hx).symm.trans hafter⟩
  | unlinked => cases hafter
  | _ => exact .inl ⟨_, rfl, hafter⟩

/-- A reference was there before, or one of the operations has inserted it. -/
theorem Evolves.refers {events : List LogEntry} {start row : Option JobEntry}
    (h : jobDynamics.Evolves events start row) {after : JobEntry} (hrow : row = some after)
    (hafter : after.row.replayedFromJobId = some source) :
    (∃ entry, start = some entry ∧ entry.row.replayedFromJobId = some source) ∨
      ∃ op ∈ events, ∃ job, op.event = .inserted op.event.jobId job ∧ job.replayedFromJobId = some source := by
  induction h generalizing after with
  | nil row => exact .inl ⟨after, hrow, hafter⟩
  | @snoc events op start middle last _ hacts ih =>
    subst hrow
    rcases JobActs.refers hacts hafter with ⟨entry, rfl, hentry⟩ | hinserted
    · rcases ih rfl hentry with hstart | ⟨op', hop', hinserted⟩
      · exact .inl hstart
      · exact .inr ⟨op', List.mem_append_left _ hop', hinserted⟩
    · exact .inr ⟨op, List.mem_append_right _ (List.mem_singleton_self _), hinserted⟩

/-- A job that is gone was not there before and has not been touched, or one of the operations has
deleted it. -/
theorem Evolves.deleted {events : List LogEntry} {start row : Option JobEntry}
    (h : jobDynamics.Evolves events start row) (hrow : row = none) :
    start = none ∧ events = [] ∨ ∃ op ∈ events, ∃ args, op.event = .deleted op.event.jobId args := by
  cases h with
  | nil => exact .inl ⟨hrow, rfl⟩
  | @snoc _ op _ _ _ _ hacts =>
    subst hrow
    refine .inr ⟨op, List.mem_append_right _ (List.mem_singleton_self _), ?_⟩
    cases (hacts : JobActs op _ none)
    exact ⟨_, rfl⟩

/-- A job that appears has been inserted. -/
theorem Evolves.inserted {events : List LogEntry} {start row : Option JobEntry}
    (h : jobDynamics.Evolves events start row) (hstart : start = none) (hrow : row ≠ none) :
    ∃ op ∈ events, ∃ job, op.event = .inserted op.event.jobId job := by
  induction h with
  | nil row => exact absurd hstart hrow
  | @snoc events op start middle last _ hacts ih =>
    cases middle with
    | none =>
      obtain ⟨last, rfl⟩ := Option.ne_none_iff_exists'.mp hrow
      refine ⟨op, List.mem_append_right _ (List.mem_singleton_self _), ?_⟩
      cases (hacts : JobActs op none _)
      exact ⟨_, rfl⟩
    | some middle =>
      obtain ⟨op', hop', hinserted⟩ := ih hstart (by simp)
      exact ⟨op', List.mem_append_left _ hop', hinserted⟩

/-- The operations of a transaction on a job are among its operations. -/
theorem event_mem_of_filter {T : Txn} {op : LogEntry}
    (hop : op ∈ (T.changes.map Change.event).filter fun op => jobDynamics.target op = id) :
    op.event ∈ T.events ∧ op.event.jobId = id := by
  obtain ⟨hmem, hid⟩ := List.mem_filter.mp hop
  obtain ⟨c, hc, rfl⟩ := List.mem_map.mp hmem
  exact ⟨List.mem_map_of_mem hc, of_decide_eq_true hid⟩

/-- A reference that a transaction sees is committed or its own. -/
theorem TxnOk.refersTo_view (hT : TxnOk s t T) (h : RefersTo (T.view s) id source) :
    RefersTo s.jobs id source ∨ T.InsertsReplay id source := by
  obtain ⟨entry, hget, hsource⟩ := h
  rcases Evolves.refers (hT.consistent.evolves id) hget hsource with hbefore | ⟨op, hop, job, hevent, hjob⟩
  · exact .inl hbefore
  · obtain ⟨hmem, hid⟩ := event_mem_of_filter hop
    rw [hevent, hid] at hmem
    exact .inr ⟨job, hmem, hjob⟩

/-- A job that a transaction misses has been deleted by it, or it is not committed and the transaction
has nothing to do with it. -/
theorem TxnOk.deletes_of_view (hT : TxnOk s t T) (h : (T.view s).get id = none) :
    T.Deletes id ∨ s.jobs.get id = none ∧ ∀ e ∈ T.events, e.jobId ≠ id := by
  rcases Evolves.deleted (hT.consistent.evolves id) h with ⟨hnone, hquiet⟩ | ⟨op, hop, args, hevent⟩
  · refine .inr ⟨hnone, fun e he hid => ?_⟩
    obtain ⟨c, hc, rfl⟩ := List.mem_map.mp he
    have hmem : c.event ∈ (T.changes.map Change.event).filter fun op => jobDynamics.target op = id :=
      List.mem_filter.mpr ⟨List.mem_map_of_mem hc, decide_eq_true hid⟩
    rw [hquiet] at hmem
    cases hmem
  · obtain ⟨hmem, hid⟩ := event_mem_of_filter hop
    rw [hevent, hid] at hmem
    exact .inl ⟨args, hmem⟩

/-- A job that a transaction sees is committed or its own. -/
theorem TxnOk.known_of_view (hT : TxnOk s t T) (h : (T.view s).get id ≠ none) :
    s.jobs.get id ≠ none ∨ ∃ job, .inserted id job ∈ T.events := by
  by_cases hnone : s.jobs.get id = none
  · obtain ⟨op, hop, job, hevent⟩ := Evolves.inserted (hT.consistent.evolves id) hnone h
    obtain ⟨hmem, hid⟩ := event_mem_of_filter hop
    rw [hevent, hid] at hmem
    exact .inr ⟨job, hmem⟩
  · exact .inl hnone

/-- A transaction that deletes jobs is a purge, and it does not see them any more. -/
theorem Reachable.view_of_deletes (h : Reachable s) (hT : s.txns t = some T) (hdeletes : T.Deletes id) :
    (∃ args pc, T.task = .purge args pc) ∧ (T.view s).get id = none := by
  obtain ⟨args', hmem⟩ := hdeletes
  obtain ⟨args, pc, htask⟩ := (h.writes hT).of_isPurge hmem rfl
  refine ⟨⟨args, pc, htask⟩, ?_⟩
  obtain ⟨c, hc, hevent⟩ := List.mem_map.mp hmem
  have hgone {gone : List JobEntry} (hpurging : Purging s t T args gone) : (T.view s).get id = none := by
    obtain ⟨e, he, rfl⟩ := hpurging.events c hc id args' hevent
    exact (hpurging.deleted e he).2.2.1
  have hfollows := h.purgeFollows hT args pc htask
  cases pc with
  | begin =>
    rw [show T.changes = [] from hfollows] at hc
    cases hc
  | _ =>
    obtain ⟨gone, hpurging, -⟩ := hfollows
    exact hgone hpurging

/-! ## The steps on the references -/

/-- What a step does to the references: nothing, the insertion of a job whose source is alive, or a step
of a purge. -/
inductive ReferenceMove (s : State) (t : TxnId) (T : Txn) (effect : Effect) : Prop
  | quiet (hshare : effect.keyShare = none) (hchanges : ∀ c ∈ effect.changes, c.event.event.isUpdate = true)
      (htask : ∀ args pc, effect.task ≠ .purge args pc)
  | insert {job : NewJob} (hshare : effect.keyShare = job.replayedFromJobId)
      (halive : sourceAlive s t T job.replayedFromJobId = true)
      (hchanges : effect.changes =
        [⟨⟨t, T.now, .inserted s.nextJob job⟩, some ⟨insertJob s.nextJob T.now job, []⟩⟩])
      (htask : effect.task = .insert job (.finished s.nextJob true))
  | purge {args : PurgeArgs} {pc : PurgePc} (htask : T.task = .purge args pc)
      (he : purgeStatement s t T args pc = some effect)

/-- A scan touches no reference. -/
theorem claimScan_referenceMove {args : ClaimArgs} {snapshot : JobTable} {todo : List QueueName}
    {picked : List JobId} {active : List ActiveQueue}
    (he : claimScan s t T args snapshot todo picked active = some effect) : ReferenceMove s t T effect := by
  unfold claimScan at he
  repeat' split at he
  all_goals cases he
  all_goals exact .quiet rfl (by simp) (by simp)

/-- Nor does a statement of a claim round. -/
theorem claimStatement_referenceMove {args : ClaimArgs} {pc : ClaimPc}
    (he : claimStatement s t T args pc = some effect) : ReferenceMove s t T effect := by
  have hclaims (entries : List JobEntry) (c : Change LogEntry JobEntry)
      (hc : c ∈ entries.map (claimChange t T.now args)) : c.event.event.isUpdate = true := by
    obtain ⟨entry, -, rfl⟩ := List.mem_map.mp hc
    rfl
  unfold claimStatement at he
  repeat' split at he
  all_goals first | exact claimScan_referenceMove he | cases he
  all_goals first
    | exact .quiet rfl (hclaims _) (by simp)
    | exact .quiet rfl (by simp [JobEvent.isUpdate]) (by simp)

/-- A step of an insertion shares the lock of a source that is alive, or leaves the references alone. -/
theorem insertStatement_referenceMove {job : NewJob} {pc : InsertPc}
    (he : insertStatement s t T job pc = some effect) : ReferenceMove s t T effect := by
  rcases insertStatement_cases he with he | hnew | ⟨pc', keyLock, queueShare, rfl⟩
  · obtain ⟨-, rfl⟩ | ⟨-, -, rfl⟩ := upsertQueue_cases he <;> exact .quiet rfl (by simp) (by simp)
  · obtain ⟨-, halive, rfl⟩ := insertNew_cases hnew
    exact .insert rfl halive rfl rfl
  · exact .quiet rfl (by simp) (by simp)

/-- Every step of every transaction is one of these. -/
theorem Steps.referenceMove (h : Steps s t T effect) : ReferenceMove s t T effect := by
  rcases h with he | he | ⟨job, he⟩
  · unfold statement at he
    split at he
    · exact claimStatement_referenceMove he
    · obtain ⟨pc', -, rfl⟩ | ⟨entry, -, -, -, -, rfl⟩ := callStatement_cases he
      · exact .quiet rfl (by simp) (by simp)
      · exact .quiet rfl (by simp [callChange_isUpdate]) (by simp)
    · obtain ⟨pc', -, rfl⟩ | ⟨entry, -, -, -, -, rfl⟩ := cancelStatement_cases he
      · exact .quiet rfl (by simp) (by simp)
      · exact .quiet rfl (by simp [JobEvent.isUpdate]) (by simp)
    · exact insertStatement_referenceMove he
    · obtain ⟨-, ⟨pc', -, rfl⟩ | ⟨source, -, rfl⟩⟩ := replayStatement_cases he <;>
        exact .quiet rfl (by simp) (by simp)
    · obtain ⟨-, hupsert⟩ | ⟨pc', -, rfl⟩ | ⟨row, -, -, -, -, rfl⟩ := queueStatement_cases he
      · obtain ⟨-, rfl⟩ | ⟨-, -, rfl⟩ := upsertQueue_cases hupsert <;> exact .quiet rfl (by simp) (by simp)
      · exact .quiet rfl (by simp) (by simp)
      · exact .quiet rfl (by simp) (by simp)
    · exact .purge ‹_› he
  · unfold scanStatement at he
    split at he
    · exact claimScan_referenceMove he
    · cases he
  · obtain ⟨done, pc, -, -, -, rfl⟩ := enqueueMore_cases he
    exact .quiet rfl (by simp) (by simp)

/-! ## The references in every state -/

/-- What a purge has still to clear: the references to the jobs that it has deleted. -/
def Txn.Cascades (s : State) (T : Txn) : Prop :=
  match T.task with
  | .purge _ (.cascading todo _) => ∀ id source, RefersTo (T.view s) id source → T.Deletes source → id ∈ todo
  | .purge _ (.finished _) => ∀ id source, RefersTo (T.view s) id source → ¬ T.Deletes source
  | _ => True

/-- The committed references lead to older jobs that are there. An open transaction that has inserted a
replay shares the lock of the source, and nobody has deleted a job with a shared lock. -/
structure ReferencesOk (s : State) : Prop where
  there : ∀ id source, RefersTo s.jobs id source → s.jobs.get source ≠ none
  older : ∀ id source, RefersTo s.jobs id source → source < id
  inserted : ∀ t T, s.txns t = some T → ∀ id source, T.InsertsReplay id source →
    t ∈ s.keyShares source ∧ source < id ∧ (s.jobs.get source ≠ none ∨ ∃ job, .inserted source job ∈ T.events)
  sharing : ∀ t source, t ∈ s.keyShares source →
    ∃ T, s.txns t = some T ∧ ∃ id job, .inserted id job ∈ T.events
  shared : ∀ t source, t ∈ s.keyShares source → ∀ u U, s.txns u = some U → ¬ U.Deletes source
  cascaded : ∀ t T, s.txns t = some T → T.Cascades s

/-- Without jobs there are no references. -/
theorem referencesOk_init (clock : Timestamp) : ReferencesOk (State.init clock) where
  there := by rintro id source ⟨_, hget, -⟩; cases hget
  older := by rintro id source ⟨_, hget, -⟩; cases hget
  inserted _ _ hT := by cases hT
  sharing _ _ hmem := by cases hmem
  shared _ _ hmem := by cases hmem
  cascaded _ _ hT := by cases hT

/-- What a step adds to the operations of its transaction. -/
theorem mem_events_after {e : JobEvent} : e ∈ (T.after effect).events ↔
    e ∈ T.events ∨ ∃ c ∈ effect.changes, c.event.event = e := by
  rw [events_after, List.mem_append, List.mem_map]

/-- The shared locks after a step. -/
theorem mem_keyShares_perform {u : TxnId} : u ∈ (s.perform t T effect).keyShares source ↔
    u ∈ s.keyShares source ∨ effect.keyShare = some source ∧ u = t := mem_takeShare

/-- A source that is alive is seen, and no open transaction has deleted it. -/
theorem Reachable.not_deletes_of_sourceAlive (h : Reachable s) (hT : s.txns t = some T)
    (halive : sourceAlive s t T (some source) = true) :
    (T.view s).get source ≠ none ∧ ∀ u U, s.txns u = some U → ¬ U.Deletes source := by
  obtain ⟨hsees, hholder⟩ := Bool.and_eq_true_iff.mp halive
  have hview : (T.view s).get source ≠ none := Option.isSome_iff_ne_none.mp hsees
  refine ⟨hview, fun u U hU hdeletes => ?_⟩
  have hnone := (h.view_of_deletes hU hdeletes).2
  obtain ⟨args, hmem⟩ := hdeletes
  obtain ⟨c, hc, hevent⟩ := List.mem_map.mp hmem
  have hlock : s.jobLocks source = some u := by
    have hlocked := (h.inv.txn u U hU).locked c hc
    rwa [hevent] at hlocked
  by_cases hown : u = t
  · subst hown
    obtain rfl := Option.some.inj (hT.symm.trans hU)
    exact hview hnone
  · simpa [hnone] using State.passes_eq_true.mp hholder u U hlock hown hU

/-- Without changes of its own a transaction sees the references that it has seen. -/
theorem refersTo_view_of_nil (hchanges : effect.changes = [])
    (href : RefersTo ((T.after effect).view (s.perform t T effect)) id source) : RefersTo (T.view s) id source := by
  rwa [view_perform_of_nil hchanges] at href

/-- A step that deletes no job leaves a transaction with the deletions that it has made. -/
theorem Txn.deletes_of_after (hchanges : ∀ c ∈ effect.changes, ∀ id args, c.event.event ≠ .deleted id args)
    (hdel : (T.after effect).Deletes id) : T.Deletes id := by
  obtain ⟨args, hmem⟩ := hdel
  rcases mem_events_after.mp hmem with hmem | ⟨c, hc, hevent⟩
  · exact ⟨args, hmem⟩
  · exact absurd hevent (hchanges c hc id args)

/-- A step of a purge keeps the account of the references it has still to clear. -/
theorem Txn.Cascades.purge {args : PurgeArgs} {pc : PurgePc} (hcascades : T.Cascades s) (hok : EffectOk s t T effect)
    (htask : T.task = .purge args pc) (he : purgeStatement s t T args pc = some effect) :
    (T.after effect).Cascades (s.perform t T effect) := by
  unfold purgeStatement at he
  split at he
  · cases he
    trivial
  · cases he
    rintro id source href ⟨args', hmem⟩
    obtain ⟨entry, hget, hsource⟩ := refersTo_view_of_nil rfl href
    obtain ⟨hrow, hid⟩ := (Table.get_eq_some_iff _ _ _).mp hget
    rw [events_after_of_nil rfl] at hmem
    obtain ⟨c, hc, hevent⟩ := List.mem_map.mp hmem
    refine List.mem_map.mpr ⟨entry, List.mem_filter.mpr ⟨hrow, ?_⟩, hid⟩
    simp only [hsource, Option.any_some, List.any_eq_true, decide_eq_true_eq]
    exact ⟨c, hc, by rw [hevent]; rfl⟩
  · split_ifs at he
    split at he <;> cases he <;> trivial
  · cases he
    simp only [Txn.Cascades, htask] at hcascades
    intro id source href hdel
    have hmem := hcascades id source (refersTo_view_of_nil rfl href) (Txn.deletes_of_after (by simp) hdel)
    exact absurd hmem List.not_mem_nil
  · rename_i id todo deleted
    simp only [Txn.Cascades, htask] at hcascades
    split_ifs at he
    split at he
    · rename_i hnone
      cases he
      intro id' source href hdel
      have hmem := hcascades id' source (refersTo_view_of_nil rfl href) (Txn.deletes_of_after (by simp) hdel)
      obtain ⟨entry, hget, -⟩ := refersTo_view_of_nil rfl href
      refine (List.mem_cons.mp hmem).resolve_left ?_
      rintro rfl
      cases hnone.symm.trans hget
    · rename_i entry hget
      cases he
      rintro id' source ⟨entry', hget', hsource⟩ hdel
      rw [hok.get_view rfl] at hget'
      split_ifs at hget' with hid
      · obtain rfl := Option.some.inj hget'
        cases hsource
      · have hmem := hcascades id' source ⟨entry', hget', hsource⟩ (Txn.deletes_of_after (by simp) hdel)
        exact (List.mem_cons.mp hmem).resolve_left (Ne.symm hid)
  · cases he

/-- A step of a purge is a step of its statement. -/
theorem Steps.of_purge {args : PurgeArgs} {pc : PurgePc} (he : Steps s t T effect)
    (htask : T.task = .purge args pc) : purgeStatement s t T args pc = some effect := by
  rcases he with he | he | ⟨job, he⟩
  · simpa only [statement, htask] using he
  · simp [scanStatement, htask] at he
  · simp [enqueueMore, htask] at he

/-- A deletion is one that the transaction has made before, or this step of a purge makes it, and then
nobody else shares the lock of the job. -/
theorem Steps.deletes_after (he : Steps s t T effect) (hdeletes : (T.after effect).Deletes id) : T.Deletes id ∨
    (∀ holder ∈ s.keyShares id, holder = t) ∧ ∃ args pc, T.task = .purge args pc := by
  obtain ⟨args', hmem⟩ := hdeletes
  rcases mem_events_after.mp hmem with hmem | ⟨c, hc, hevent⟩
  · exact .inl ⟨args', hmem⟩
  · cases he.referenceMove with
    | quiet _ hchanges =>
      have hupdate := hchanges c hc
      rw [hevent] at hupdate
      cases hupdate
    | insert _ _ hchanges =>
      rw [hchanges, List.mem_singleton] at hc
      subst hc
      cases hevent
    | @purge args pc htask hpurge =>
      refine .inr ⟨?_, args, pc, htask⟩
      unfold purgeStatement at hpurge
      split at hpurge
      · cases hpurge; cases hc
      · cases hpurge; cases hc
      · split_ifs at hpurge with hfree
        split at hpurge
        · cases hpurge; cases hc
        · cases hpurge
          obtain rfl := List.mem_singleton.mp hc
          obtain ⟨rfl, -⟩ := JobEvent.deleted.inj hevent
          exact hfree.2
      · cases hpurge; cases hc
      · split_ifs at hpurge
        split at hpurge
        · cases hpurge; cases hc
        · cases hpurge
          obtain rfl := List.mem_singleton.mp hc
          cases hevent
      · cases hpurge

/-- No step of a purge inserts a job. -/
theorem purgeStatement_not_inserted {args : PurgeArgs} {pc : PurgePc} (he : purgeStatement s t T args pc = some effect)
    {job : NewJob} : ¬ ∃ c ∈ effect.changes, c.event.event = .inserted id job := by
  rintro ⟨c, hc, hevent⟩
  unfold purgeStatement at he
  repeat' split at he
  all_goals cases he
  all_goals simp only [List.not_mem_nil, List.mem_singleton] at hc
  all_goals subst hc; cases hevent

/-- An insertion is one that the transaction has made before, or this step makes it, and then it shares
the lock of a source that is alive. -/
theorem Steps.inserted_after (he : Steps s t T effect) {job : NewJob}
    (hinserted : .inserted id job ∈ (T.after effect).events) : .inserted id job ∈ T.events ∨
      id = s.nextJob ∧ effect.keyShare = job.replayedFromJobId ∧
        sourceAlive s t T job.replayedFromJobId = true := by
  rcases mem_events_after.mp hinserted with hmem | ⟨c, hc, hevent⟩
  · exact .inl hmem
  · cases he.referenceMove with
    | quiet _ hchanges =>
      have hupdate := hchanges c hc
      rw [hevent] at hupdate
      cases hupdate
    | insert hshare halive hchanges =>
      rw [hchanges, List.mem_singleton] at hc
      subst hc
      obtain ⟨rfl, rfl⟩ := JobEvent.inserted.inj hevent
      exact .inr ⟨rfl, hshare, halive⟩
    | purge htask hpurge => exact absurd ⟨c, hc, hevent⟩ (purgeStatement_not_inserted hpurge)

/-- A shared lock is one that was held before, or this step takes it for an insertion whose source is
alive. -/
theorem Steps.shares_after (he : Steps s t T effect) {u : TxnId}
    (hshare : u ∈ (s.perform t T effect).keyShares source) :
    u ∈ s.keyShares source ∨ u = t ∧ sourceAlive s t T (some source) = true ∧
      ∃ id job, .inserted id job ∈ (T.after effect).events := by
  rcases mem_keyShares_perform.mp hshare with hold | ⟨hnew, rfl⟩
  · exact .inl hold
  · cases he.referenceMove with
    | quiet hnone => cases hnone.symm.trans hnew
    | @insert job hjob halive hchanges =>
      rw [← hjob, hnew] at halive
      refine .inr ⟨rfl, halive, s.nextJob, job, mem_events_after.mpr (.inr ?_)⟩
      rw [hchanges]
      exact ⟨_, List.mem_singleton_self _, rfl⟩
    | purge htask hpurge =>
      unfold purgeStatement at hpurge
      repeat' split at hpurge
      all_goals cases hpurge
      all_goals cases hnew

/-- A purge has inserted nothing. -/
theorem Reachable.not_inserted_of_purge (h : Reachable s) (hT : s.txns t = some T) {args : PurgeArgs} {pc : PurgePc}
    (htask : T.task = .purge args pc) {job : NewJob} : .inserted id job ∉ T.events := by
  intro hinserted
  obtain ⟨job', pc', hinsert⟩ := (h.writes hT).of_inserted hinserted
  cases htask.symm.trans hinsert

/-- What the open transactions have inserted keeps its sources. -/
theorem ReferencesOk.inserted_perform (h : ReferencesOk s) (hreach : Reachable s) (hT : s.txns t = some T)
    (he : Steps s t T effect) (hinserts : (T.after effect).InsertsReplay id source) :
    t ∈ (s.perform t T effect).keyShares source ∧ source < id ∧
      (s.jobs.get source ≠ none ∨ ∃ job, .inserted source job ∈ (T.after effect).events) := by
  have hkeeps (hthere : s.jobs.get source ≠ none ∨ ∃ job, .inserted source job ∈ T.events) :
      s.jobs.get source ≠ none ∨ ∃ job, .inserted source job ∈ (T.after effect).events := by
    refine hthere.imp_right ?_
    rintro ⟨job, hmem⟩
    exact ⟨job, mem_events_after.mpr (.inl hmem)⟩
  obtain ⟨job, hmem, hjob⟩ := hinserts
  rcases he.inserted_after hmem with hmem | ⟨rfl, hshare, halive⟩
  · obtain ⟨hheld, holder, hthere⟩ := h.inserted t T hT id source ⟨job, hmem, hjob⟩
    exact ⟨mem_keyShares_perform.mpr (.inl hheld), holder, hkeeps hthere⟩
  · rw [hjob] at hshare halive
    obtain ⟨hsees, -⟩ := hreach.not_deletes_of_sourceAlive hT halive
    obtain ⟨entry, hget⟩ := Option.ne_none_iff_exists'.mp hsees
    have htxn := hreach.inv.txn t T hT
    exact ⟨mem_keyShares_perform.mpr (.inr ⟨hshare, rfl⟩), hreach.inv.lt_nextJob htxn hget,
      hkeeps (htxn.known_of_view hsees)⟩

/-- No step deletes a job with a shared lock, or shares the lock of a deleted job. -/
theorem ReferencesOk.shared_perform (h : ReferencesOk s) (hreach : Reachable s) (hT : s.txns t = some T)
    (he : Steps s t T effect) {u : TxnId} (hshare : u ∈ (s.perform t T effect).keyShares source) {w : TxnId}
    {W : Txn} (hW : (s.perform t T effect).txns w = some W) : ¬ W.Deletes source := by
  intro hdeletes
  have hbefore {w : TxnId} {W : Txn} (hW : s.txns w = some W) : ¬ W.Deletes source := by
    rcases he.shares_after hshare with hold | ⟨-, halive, -⟩
    · exact h.shared u source hold w W hW
    · exact (hreach.not_deletes_of_sourceAlive hT halive).2 w W hW
  rcases eq_or_ne w t with rfl | hne
  · obtain rfl : T.after effect = W := by simpa [State.perform] using hW
    rcases he.deletes_after hdeletes with hdeletes | ⟨hall, args, pc, htask⟩
    · exact hbefore hT hdeletes
    · rcases he.shares_after hshare with hold | ⟨-, -, id, job, hinserted⟩
      · -- The purge itself would have to share the lock.
        obtain rfl := hall u hold
        obtain ⟨U, hU, id, job, hinserted⟩ := h.sharing u source hold
        obtain rfl := Option.some.inj (hT.symm.trans hU)
        exact hreach.not_inserted_of_purge hT htask hinserted
      · rcases mem_events_after.mp hinserted with hinserted | hnew
        · exact hreach.not_inserted_of_purge hT htask hinserted
        · exact purgeStatement_not_inserted (he.of_purge htask) hnew
  · exact hbefore (by simpa [State.perform, hne] using hW) hdeletes

/-- Whoever shares a lock is open and has inserted a job. -/
theorem ReferencesOk.sharing_perform (h : ReferencesOk s) (hT : s.txns t = some T) (he : Steps s t T effect)
    {u : TxnId} (hshare : u ∈ (s.perform t T effect).keyShares source) :
    ∃ W, (s.perform t T effect).txns u = some W ∧ ∃ id job, .inserted id job ∈ W.events := by
  have hafter : (s.perform t T effect).txns t = some (T.after effect) := by simp [State.perform]
  rcases he.shares_after hshare with hold | ⟨rfl, -, hinserted⟩
  · obtain ⟨U, hU, id, job, hmem⟩ := h.sharing u source hold
    rcases eq_or_ne u t with rfl | hne
    · obtain rfl := Option.some.inj (hT.symm.trans hU)
      exact ⟨_, hafter, id, job, mem_events_after.mpr (.inl hmem)⟩
    · exact ⟨U, by simpa [State.perform, hne] using hU, id, job, hmem⟩
  · exact ⟨_, hafter, hinserted⟩

/-- The transaction of a step keeps the account of what it has still to clear. -/
theorem Txn.Cascades.after (hcascades : T.Cascades s) (hok : EffectOk s t T effect) (he : Steps s t T effect) :
    (T.after effect).Cascades (s.perform t T effect) := by
  cases he.referenceMove with
  | quiet _ _ htask =>
    unfold Txn.Cascades
    split
    · exact absurd ‹_› (htask _ _)
    · exact absurd ‹_› (htask _ _)
    · trivial
  | insert _ _ _ htask =>
    rw [Txn.Cascades, show (T.after effect).task = _ from htask]
    trivial
  | purge htask hpurge => exact hcascades.purge hok htask hpurge

/-- A step keeps the references in order. -/
theorem ReferencesOk.perform (h : ReferencesOk s) (hreach : Reachable s) (hT : s.txns t = some T)
    (he : Steps s t T effect) : ReferencesOk (s.perform t T effect) where
  there := h.there
  older := h.older
  inserted w W hW id source hinserts := by
    rcases eq_or_ne w t with rfl | hne
    · obtain rfl : T.after effect = W := by simpa [State.perform] using hW
      exact h.inserted_perform hreach hT he hinserts
    · obtain ⟨hheld, holder, hthere⟩ :=
        h.inserted w W (by simpa [State.perform, hne] using hW) id source hinserts
      exact ⟨mem_keyShares_perform.mpr (.inl hheld), holder, hthere⟩
  sharing _ _ hshare := h.sharing_perform hT he hshare
  shared _ _ hshare _ _ hW := h.shared_perform hreach hT he hshare hW
  cascaded w W hW := by
    rcases eq_or_ne w t with rfl | hne
    · obtain rfl : T.after effect = W := by simpa [State.perform] using hW
      exact (h.cascaded w T hT).after (he.ok hreach.inv (hreach.inv.txn w T hT)) he
    · exact h.cascaded w W (by simpa [State.perform, hne] using hW)

/-- Of the shared locks, an ending transaction gives back its own. -/
theorem mem_keyShares_close {u w : TxnId} :
    w ∈ (s.close u).keyShares source ↔ w ∈ s.keyShares source ∧ w ≠ u := mem_releaseShares

/-- A rollback keeps the references in order. -/
theorem ReferencesOk.close (h : ReferencesOk s) (u : TxnId) : ReferencesOk (s.close u) where
  there := h.there
  older := h.older
  inserted w W hW id source hinserts := by
    obtain ⟨hne, hopen⟩ := txns_close hW
    obtain ⟨hheld, holder, hthere⟩ := h.inserted w W hopen id source hinserts
    exact ⟨mem_keyShares_close.mpr ⟨hheld, hne⟩, holder, hthere⟩
  sharing w source hshare := by
    obtain ⟨hheld, hne⟩ := mem_keyShares_close.mp hshare
    obtain ⟨W, hW, hinserted⟩ := h.sharing w source hheld
    exact ⟨W, by simpa [State.close, hne] using hW, hinserted⟩
  shared w source hshare x X hX := h.shared w source (mem_keyShares_close.mp hshare).1 x X (txns_close hX).2
  cascaded w W hW := h.cascaded w W (txns_close hW).2

/-- What a purge that commits has deleted is referred to no more. -/
theorem ReferencesOk.not_deletes_of_refers (h : ReferencesOk s) (hreach : Reachable s) (hT : s.txns t = some T)
    (hcommit : T.task.committable = true) (href : RefersTo (T.view s) id source) : ¬ T.Deletes source := by
  intro hdeletes
  obtain ⟨⟨args, pc, htask⟩, -⟩ := hreach.view_of_deletes hT hdeletes
  have hcascades := h.cascaded t T hT
  rw [htask] at hcommit
  cases pc with
  | finished deleted =>
    simp only [Txn.Cascades, htask] at hcascades
    exact hcascades id source href hdeletes
  | _ => cases hcommit

/-- A reference that a transaction sees after the commit of another one it has seen before, or the other
one has inserted it. -/
theorem Reachable.refersTo_commit (hreach : Reachable s) {u w : TxnId} {U W : Txn} (hU : s.txns u = some U)
    (hW : s.txns w = some W) (hne : w ≠ u) (href : RefersTo (W.view (s.commit u U)) id source) :
    RefersTo (W.view s) id source ∨ U.InsertsReplay id source := by
  have hUok := hreach.inv.txn u U hU
  have hWok := hreach.inv.txn w W hW
  obtain ⟨entry, hget, hsource⟩ := href
  by_cases hlock : s.jobLocks id = some w
  · rw [hWok.view_congr (hUok.frame_commit hne) (hUok.view_of_other hne hlock)] at hget
    exact .inl ⟨entry, hget, hsource⟩
  · have hopen : (s.commit u U).txns w = some W := by simpa [State.commit, State.close, hne] using hW
    have hunlocked : (s.commit u U).jobLocks id ≠ some w := fun hheld => hlock (releaseLocks_eq_some.mp hheld).1
    rw [((hreach.inv.commit hU).txn w W hopen).view_of_unlocked hunlocked] at hget
    refine (hUok.refersTo_view ⟨entry, hget, hsource⟩).imp_left ?_
    rintro ⟨before, hbefore, hrefers⟩
    exact ⟨before, (hWok.view_of_unlocked hlock).trans hbefore, hrefers⟩

/-- A commit keeps the references in order. -/
theorem ReferencesOk.commit (h : ReferencesOk s) (hreach : Reachable s) {u : TxnId} {U : Txn}
    (hU : s.txns u = some U) (hcommit : U.task.committable = true) : ReferencesOk (s.commit u U) := by
  have hUok := hreach.inv.txn u U hU
  have hkeeps {source : JobId} (hthere : s.jobs.get source ≠ none) (hdeletes : ¬ U.Deletes source) :
      (U.view s).get source ≠ none := by
    intro hnone
    rcases hUok.deletes_of_view hnone with hdel | ⟨hgone, -⟩
    · exact hdeletes hdel
    · exact hthere hgone
  have hclose := h.close u
  refine ⟨fun id source href => ?_, fun id source href => ?_, fun w W hW id source hinserts => ?_,
    hclose.sharing, hclose.shared, fun w W hW => ?_⟩
  · have hnot := h.not_deletes_of_refers hreach hU hcommit href
    rcases hUok.refersTo_view href with hbefore | hinserts
    · exact hkeeps (h.there id source hbefore) hnot
    · obtain ⟨-, -, hthere | ⟨job, hmem⟩⟩ := h.inserted u U hU id source hinserts
      · exact hkeeps hthere hnot
      · intro hnone
        rcases hUok.deletes_of_view hnone with hdel | ⟨-, huntouched⟩
        · exact hnot hdel
        · exact huntouched _ hmem rfl
  · rcases hUok.refersTo_view href with hbefore | hinserts
    · exact h.older id source hbefore
    · exact (h.inserted u U hU id source hinserts).2.1
  · obtain ⟨hne, hopen⟩ := txns_close (t := u) hW
    obtain ⟨hheld, holder, hthere⟩ := hclose.inserted w W hW id source hinserts
    refine ⟨hheld, holder, hthere.imp_left fun hthere => hkeeps hthere ?_⟩
    exact h.shared w source (mem_keyShares_close.mp hheld).1 u U hU
  · obtain ⟨hne, hopen⟩ := txns_close (t := u) hW
    have hcascades := h.cascaded w W hopen
    have hbefore {id source : JobId} (href : RefersTo (W.view (s.commit u U)) id source) (hdel : W.Deletes source) :
        RefersTo (W.view s) id source := by
      refine (hreach.refersTo_commit hU hopen hne href).resolve_right fun hinserts => ?_
      exact h.shared u source (h.inserted u U hU id source hinserts).1 w W hopen hdel
    unfold Txn.Cascades at hcascades ⊢
    split
    · simp only [*] at hcascades
      exact fun id source href hdel => hcascades id source (hbefore href hdel) hdel
    · simp only [*] at hcascades
      exact fun id source href hdel => hcascades id source (hbefore href hdel) hdel
    · trivial

/-- No purge begins with something to clear. -/
theorem cascades_of_request {request : Request} {task : Task} (hr : request.task s = some task) {now : Timestamp} :
    Txn.Cascades s' ⟨now, task, [], []⟩ := by
  cases request with
  | call i op =>
    obtain ⟨x, -, rfl⟩ := Option.map_eq_some_iff.mp hr
    trivial
  | enqueue job =>
    simp only [Request.task] at hr
    split_ifs at hr
    cases hr
    trivial
  | _ =>
    cases hr
    trivial

/-- A transaction that begins keeps the references in order. -/
theorem ReferencesOk.open (h : ReferencesOk s) (hreach : Reachable s) {request : Request} {task : Task}
    (hr : request.task s = some task) : ReferencesOk (s.open task) := by
  have hcases {w : TxnId} {W : Txn} (hW : (s.open task).txns w = some W) :
      W = ⟨s.clock, task, [], []⟩ ∨ s.txns w = some W := by
    rcases eq_or_ne w s.nextTxn with rfl | hne
    · exact .inl (by simpa [State.open, eq_comm] using hW)
    · exact .inr (by simpa [State.open, hne] using hW)
  refine ⟨h.there, h.older, fun w W hW id source hinserts => ?_, fun w source hshare => ?_,
    fun w source hshare x X hX hdel => ?_, fun w W hW => ?_⟩
  · rcases hcases hW with rfl | hopen
    · obtain ⟨job, hmem, -⟩ := hinserts
      cases hmem
    · exact h.inserted w W hopen id source hinserts
  · obtain ⟨W, hW, hinserted⟩ := h.sharing w source hshare
    have hne : w ≠ s.nextTxn := (hreach.inv.lt_nextTxn hW).ne
    exact ⟨W, by simpa [State.open, hne] using hW, hinserted⟩
  · rcases hcases hX with rfl | hopen
    · obtain ⟨args, hmem⟩ := hdel
      cases hmem
    · exact h.shared w source hshare x X hopen hdel
  · rcases hcases hW with rfl | hopen
    · exact cascades_of_request hr
    · exact h.cascaded w W hopen

/-- The references are in order in every state. -/
theorem Reachable.referencesOk (h : Reachable s) : ReferencesOk s := by
  obtain ⟨clock, hrun⟩ := h
  suffices hinv : Reachable s ∧ ReferencesOk s from hinv.2
  refine ReachesUnder.invariant (I := fun s => Reachable s ∧ ReferencesOk s) hrun
    ⟨⟨clock, .refl⟩, referencesOk_init clock⟩ ?_
  rintro s a s' ⟨hreach, hok⟩ - hs
  refine ⟨hreach.tail hs, ?_⟩
  rcases step_cases hs with ⟨elapsed, -, rfl⟩ | ⟨request, task, -, hr, rfl⟩ |
    ⟨u, U, effect, hU, he, rfl⟩ | ⟨u, U, -, hU, hcommit, rfl⟩ | ⟨u, U, -, -, rfl⟩
  · exact ⟨hok.there, hok.older, hok.inserted, hok.sharing, hok.shared, hok.cascaded⟩
  · exact hok.open hreach hr
  · exact hok.perform hreach hU (StepsBy.steps he)
  · exact hok.commit hreach hU hcommit
  · exact hok.close u

/-! ## The queues of the jobs -/

/-- The queue has been read, and the job may be inserted. -/
def InsertPc.hasQueue : InsertPc → Bool
  | .queueRead | .inserting | .queueChecked => true
  | _ => false

/-- What a transaction has inserted, and what it is about to insert, goes into a queue that it sees. -/
structure InQueue (s : State) (_ : TxnId) (T : Txn) : Prop where
  inserted : ∀ id job, .inserted id job ∈ T.events → (T.queueView s).get job.queueName ≠ none
  inserting : ∀ job pc, T.task = .insert job pc → pc.hasQueue = true → (T.queueView s).get job.queueName ≠ none

/-- A queue that a transaction sees it sees after each of its steps. -/
theorem known_perform {q : QueueName} (h : (T.queueView s).get q ≠ none) :
    ((T.after effect).queueView (s.perform t T effect)).get q ≠ none := by
  rw [queueView_perform]
  exact Table.get_foldl_put_ne_none _ h

/-- Every step keeps the queues of the inserted jobs there. -/
theorem InQueue.step (h : InQueue s t T) (he : Steps s t T effect) :
    InQueue (s.perform t T effect) t (T.after effect) where
  inserted id job hinserted := by
    rcases mem_events_after.mp hinserted with hmem | ⟨c, hc, hevent⟩
    · exact known_perform (h.inserted id job hmem)
    · cases he.referenceMove with
      | quiet _ hchanges =>
        have hupdate := hchanges c hc
        rw [hevent] at hupdate
        cases hupdate
      | insert _ _ hchanges htask =>
        rw [hchanges, List.mem_singleton] at hc
        subst hc
        obtain ⟨-, rfl⟩ := JobEvent.inserted.inj hevent
        rcases he.insertMove_of_task htask with hpc | ⟨pc, hpc, hmove⟩
        · cases hpc
        · cases hmove with
          | insert => exact known_perform (h.inserting _ _ hpc rfl)
          | upsert htask' => cases htask'.symm.trans htask
          | _ => cases hchanges
      | purge htask hpurge => exact absurd ⟨c, hc, hevent⟩ (purgeStatement_not_inserted hpurge)
  inserting job pc' htask hqueue := by
    rcases he.insertMove_of_task htask with rfl | ⟨pc, hpc, hmove⟩
    · cases hqueue
    · cases hmove with
      | readQueue hknown => exact known_perform hknown
      | reserve _ | share _ => exact known_perform (h.inserting job _ hpc rfl)
      | upsert htask' =>
        obtain rfl := (Task.insert.inj (htask'.symm.trans htask)).2
        cases hqueue
      | insert hnew =>
        obtain rfl := (Task.insert.inj ((insertNew_eq_some hnew).1.symm.trans htask)).2
        cases hqueue
      | _ =>
        obtain rfl := (Task.insert.inj htask).2
        cases hqueue

/-- Every insertion of an open transaction goes into a queue that it sees. -/
theorem Reachable.inQueue (h : Reachable s) : ∀ t T, s.txns t = some T → InQueue s t T := by
  obtain ⟨clock, hrun⟩ := h
  refine ReachesUnder.txn_rule ?_ ?_ ?_ hrun
  · intro s request task _ _ hr
    refine ⟨fun _ _ hmem => absurd hmem List.not_mem_nil, fun job pc htask hqueue => ?_⟩
    obtain rfl : pc = .begin := Request.atBegin (hr.trans (congrArg some htask))
    cases hqueue
  · intro s t T a effect _ _ _ he hold
    exact hold.step he.steps
  · intro s a s' t T _ _ _ _ _ he hold
    exact ⟨fun id job hmem => Table.get_foldl_put_mono _ (he.known _) (hold.inserted id job hmem),
      fun job pc htask hqueue => Table.get_foldl_put_mono _ (he.known _) (hold.inserting job pc htask hqueue)⟩

/-- Every job that has been inserted went into a queue that is still there. -/
theorem Reachable.queue_of_insertion (h : Reachable s) {job : NewJob} (hmem : (id, job) ∈ insertions s.log) :
    s.queues.get job.queueName ≠ none := by
  obtain ⟨clock, hrun⟩ := h
  suffices hinv : Reachable s ∧ ∀ id job, (id, job) ∈ insertions s.log → s.queues.get job.queueName ≠ none from
    hinv.2 id job hmem
  refine ReachesUnder.invariant
    (I := fun s => Reachable s ∧ ∀ id job, (id, job) ∈ insertions s.log → s.queues.get job.queueName ≠ none) hrun
    ⟨⟨clock, .refl⟩, fun _ _ hmem => by cases hmem⟩ ?_
  rintro s a s' ⟨hreach, hold⟩ - hs
  refine ⟨hreach.tail hs, fun id job hmem => ?_⟩
  rcases step_cases hs with ⟨elapsed, -, rfl⟩ | ⟨request, task, -, hr, rfl⟩ |
    ⟨u, U, effect, hU, he, rfl⟩ | ⟨u, U, -, hU, -, rfl⟩ | ⟨u, U, -, -, rfl⟩
  · exact hold id job hmem
  · exact hold id job hmem
  · exact hold id job hmem
  · obtain ⟨op, hop, hevent⟩ := mem_insertions.mp hmem
    rcases List.mem_append.mp hop with hlogged | hnew
    · exact Table.get_foldl_put_ne_none _ (hold id job (mem_insertions.mpr ⟨op, hlogged, hevent⟩))
    · obtain ⟨c, hc, rfl⟩ := List.mem_map.mp hnew
      exact (hreach.inQueue u U hU).inserted id job (List.mem_map.mpr ⟨c, hc, hevent⟩)
  · exact hold id job hmem

/-- The queue of a job is there. -/
theorem Reachable.queue_of_get (h : Reachable s) {entry : JobEntry} (hget : s.jobs.get id = some entry) :
    s.queues.get entry.row.queueName ≠ none := by
  obtain ⟨job, hmem, hcontents, -⟩ := h.inserted_of_get hget
  have hqueue : job.queueName = entry.row.queueName := congrArg JobContents.queueName hcontents
  rw [← hqueue]
  exact h.queue_of_insertion hmem

/-! ## How long a replay stays linked -/

/-- A commit that leaves a replay leaves its reference, or it has deleted the source. -/
theorem Reachable.linked_of_commit (h : Reachable s) (hT : s.txns t = some T) (hcommit : T.task.committable = true)
    {before after : JobEntry} (hbefore : s.jobs.get id = some before)
    (hsource : before.row.replayedFromJobId = some source) (hafter : (T.view s).get id = some after) :
    after.row.replayedFromJobId = some source ∨ (T.view s).get source = none := by
  by_cases hpurge : ∃ args deleted, T.task = .purge args (.finished deleted)
  · obtain ⟨args, deleted, htask⟩ := hpurge
    obtain ⟨gone, hpurging, -⟩ := h.purgeFollows hT args _ htask
    obtain rfl : before.id = id := Table.key_of_get hbefore
    rcases hpurging.rows _ before hbefore with hgone | hsame | ⟨-, e, he, hreplay⟩
    · cases (hpurging.deleted before hgone).2.2.1.symm.trans hafter
    · obtain rfl := Option.some.inj (hsame.symm.trans hafter)
      exact .inl hsource
    · obtain rfl : e.id = source := Option.some.inj (hreplay.symm.trans hsource)
      exact .inr (hpurging.deleted e he).2.2.1
  · have hevents : ∀ op ∈ (T.changes.map Change.event).filter (jobDynamics.target · = id),
        op.event.isPurge = false := by
      intro op hop
      by_contra hop'
      refine hpurge (h.finished_of_isPurge hT hcommit ?_ (Bool.eq_true_of_not_eq_false hop'))
      exact (event_mem_of_filter hop).1
    obtain ⟨last, hlast, hsame⟩ :=
      Evolves.keeps_source ((h.inv.txn t T hT).consistent.evolves id) hevents hbefore
    obtain rfl := Option.some.inj (hafter.symm.trans hlast)
    exact .inl (hsame.trans hsource)

/-- A logged replay is younger than its source; if its row is there, it refers to the source or the source
has been deleted. -/
def StaysLinked (s : State) : Prop :=
  ∀ id job source, (id, job) ∈ insertions s.log → job.replayedFromJobId = some source →
    source < id ∧ (∃ c ∈ s.log, c.event.jobId = source) ∧ ∀ entry, s.jobs.get id = some entry →
      entry.row.replayedFromJobId = some source ∨ s.jobs.get source = none

/-- Every commit keeps the references. -/
theorem StaysLinked.commit (h : StaysLinked s) (hreach : Reachable s) (hT : s.txns t = some T)
    (hcommit : T.task.committable = true) : StaysLinked (s.commit t T) := by
  intro id job source hmem hsource
  have hok := hreach.inv.txn t T hT
  rw [show (s.commit t T).log = s.log ++ T.changes.map Change.event from rfl, insertions_append,
    List.mem_append] at hmem
  rcases hmem with hold | hnew
  · obtain ⟨holder, ⟨c, hc, hcid⟩, hlinked⟩ := h id job source hold hsource
    refine ⟨holder, ⟨c, List.mem_append_left _ hc, hcid⟩, fun after hafter => ?_⟩
    obtain ⟨op, hop, hevent⟩ := mem_insertions.mp hold
    obtain ⟨before, hbefore, -⟩ := hok.view_settled ⟨op, hop, by rw [hevent]; rfl⟩ hafter
    rcases hlinked before hbefore with hrefers | hgone
    · exact hreach.linked_of_commit hT hcommit hbefore hrefers hafter
    · exact .inr (hok.view_eq_none ⟨c, hc, hcid⟩ hgone)
  · obtain ⟨op, hop, hevent⟩ := mem_insertions.mp hnew
    obtain ⟨c, hc, rfl⟩ := List.mem_map.mp hop
    have hinserted : .inserted id job ∈ T.events := List.mem_map.mpr ⟨c, hc, hevent⟩
    obtain ⟨-, holder, hthere⟩ := hreach.referencesOk.inserted t T hT id source ⟨job, hinserted, hsource⟩
    refine ⟨holder, ?_, fun after hafter => .inl ?_⟩
    · rcases hthere with hthere | ⟨job', hmem'⟩
      · obtain ⟨entry, hget⟩ := Option.ne_none_iff_exists'.mp hthere
        obtain ⟨c', hc', hid'⟩ := hreach.inv.logged hget
        exact ⟨c', List.mem_append_left _ hc', hid'⟩
      · obtain ⟨c', hc', hevent'⟩ := List.mem_map.mp hmem'
        refine ⟨c'.event, List.mem_append_right _ (List.mem_map_of_mem hc'), ?_⟩
        rw [hevent']
        rfl
    · obtain ⟨job', pc, htask⟩ := (hreach.writes hT).of_inserted hinserted
      obtain ⟨-, now, hget⟩ := (hreach.view_of_insert hT htask).2 id job hnew
      obtain rfl := Option.some.inj (hget.symm.trans hafter)
      exact hsource

/-- In every reachable state a reference is that of the insertion, unless its job is gone. -/
theorem Reachable.staysLinked (h : Reachable s) : StaysLinked s := by
  obtain ⟨clock, hrun⟩ := h
  suffices hinv : Reachable s ∧ StaysLinked s from hinv.2
  refine ReachesUnder.invariant (I := fun s => Reachable s ∧ StaysLinked s) hrun
    ⟨⟨clock, .refl⟩, fun _ _ _ hmem => by cases hmem⟩ ?_
  rintro s a s' ⟨hreach, hold⟩ - hs
  refine ⟨hreach.tail hs, ?_⟩
  rcases step_cases hs with ⟨elapsed, -, rfl⟩ | ⟨request, task, -, hr, rfl⟩ |
    ⟨u, U, effect, hU, he, rfl⟩ | ⟨u, U, -, hU, hcommit, rfl⟩ | ⟨u, U, -, -, rfl⟩
  · exact hold
  · exact hold
  · exact hold
  · exact hold.commit hreach hU hcommit
  · exact hold

/-! ## Referential integrity -/

/-- The references between the committed rows: every job is in a queue that is there, a replay refers to
its source exactly as long as that is there, every reference is one of these, and following the references
comes to an end. -/
structure ReferentialIntegrity (s : State) : Prop where
  queue : ∀ id entry, s.jobs.get id = some entry → s.queues.get entry.row.queueName ≠ none
  linked : ∀ id job source, (id, job) ∈ insertions s.log → job.replayedFromJobId = some source →
    s.jobs.get id ≠ none → (RefersTo s.jobs id source ↔ s.jobs.get source ≠ none)
  source : ∀ id source, RefersTo s.jobs id source → s.jobs.get source ≠ none ∧
    ∃ job, (id, job) ∈ insertions s.log ∧ job.replayedFromJobId = some source
  acyclic : ∀ id, ¬ Relation.TransGen (RefersTo s.jobs) id id

/-- A reference is the one that the job has been inserted with. -/
theorem Reachable.inserted_of_refersTo (h : Reachable s) (href : RefersTo s.jobs id source) :
    ∃ job, (id, job) ∈ insertions s.log ∧ job.replayedFromJobId = some source := by
  obtain ⟨entry, hget, hsource⟩ := href
  rcases Evolves.refers (h.inv.replays.evolves id) hget hsource with ⟨before, hbefore, -⟩ | ⟨op, hop, job, hevent, hjob⟩
  · cases hbefore
  · obtain ⟨hmem, hid⟩ := List.mem_filter.mp hop
    rw [show op.event.jobId = id from of_decide_eq_true hid] at hevent
    exact ⟨job, mem_insertions.mpr ⟨op, hmem, hevent⟩, hjob⟩

/-- A replay of a replay is younger than the first job. -/
theorem ReferencesOk.lt_of_transGen (h : ReferencesOk s) (href : Relation.TransGen (RefersTo s.jobs) id source) :
    source < id := by
  induction href with
  | single href => exact h.older _ _ href
  | tail _ href ih => exact (h.older _ _ href).trans ih

/-- No reference between committed rows ever dangles, and no job is a replay of itself, directly or through
other replays, whatever inserts, replays and purges run at the same time. -/
theorem referential_integrity (h : Reachable s) : ReferentialIntegrity s where
  queue _ _ hget := h.queue_of_get hget
  linked id job source hmem hsource hthere := by
    refine ⟨h.referencesOk.there id source, fun hgone => ?_⟩
    obtain ⟨entry, hget⟩ := Option.ne_none_iff_exists'.mp hthere
    exact ⟨entry, hget, ((h.staysLinked id job source hmem hsource).2.2 entry hget).resolve_right hgone⟩
  source id source href := ⟨h.referencesOk.there id source href, h.inserted_of_refersTo href⟩
  acyclic _ hcycle := lt_irrefl _ (h.referencesOk.lt_of_transGen hcycle)

/-- A replay of a replay; then the first job is purged, and the first replay refers to nothing any more. -/
def purgedSource : List Action :=
  transaction 0 (.enqueue (handlerJob "mail" 2)) 5 ++ transaction 1 (.cancel 0) 3 ++
    transaction 2 (.replay 0 false) 6 ++ transaction 3 (.cancel 1) 3 ++ transaction 4 (.replay 1 false) 6 ++
    .tick (8 * 86400 * 1000000) :: transaction 5 (.purge ⟨7, 7, 1⟩) 5

/-- The reference to the purged job is cleared, and the other one stays. -/
theorem referential_integrity_purgedSource :
    ((stateAfter 0 purgedSource).jobs.rows.map fun entry => (entry.id, entry.row.replayedFromJobId)) =
      [(2, some 1), (1, none)] ∧ ReferentialIntegrity (stateAfter 0 purgedSource) :=
  ⟨by decide +kernel, referential_integrity (reachable_stateAfter 0 purgedSource)⟩

end PgRelay
