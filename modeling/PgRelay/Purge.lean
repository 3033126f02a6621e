import PgRelay.IdempotencyKeys

/-!
# Purge batches

A purge picks old final jobs from its snapshot without a lock and deletes them by id, testing nothing
again. Final states are absorbing, so a picked job that is still there when the delete comes to it is
still one that may be purged. The delete locks the job up to the commit, so no other batch deletes and
counts the same job, and the foreign keys take the attempt rows of a deleted job along and clear the
references of its replays. Nothing else is touched.
-/

namespace PgRelay

open RowStore

variable {s s' : State} {t : TxnId} {T : Txn} {effect : Effect} {args : PurgeArgs}

/-! ## The state of an open batch -/

/-- The row that the cascade leaves of a replay whose source has been deleted. -/
def unlinked (entry : JobEntry) : JobEntry := { entry with row := unlinkReplay entry.row }

/-- The job replays one of the listed jobs. -/
def ReplaysOneOf (gone : List JobEntry) (entry : JobEntry) : Prop :=
  ∃ e ∈ gone, entry.row.replayedFromJobId = some e.id

/-- What a batch has made of the committed jobs: it has deleted some purgeable ones, and at most
cleared the reference of others to one of these. -/
structure Purging (s : State) (t : TxnId) (T : Txn) (args : PurgeArgs) (gone : List JobEntry) : Prop where
  deleted : ∀ e ∈ gone, s.jobLocks e.id = some t ∧ s.jobs.get e.id = some e ∧ (T.view s).get e.id = none ∧
    Purgeable T.now args e.row
  nodup : (gone.map JobEntry.id).Nodup
  rows : ∀ id entry, s.jobs.get id = some entry → entry ∈ gone ∨ (T.view s).get id = some entry ∨
    (T.view s).get id = some (unlinked entry) ∧ ReplaysOneOf gone entry
  known : ∀ id, s.jobs.get id = none → (T.view s).get id = none
  events : ∀ c ∈ T.changes, ∀ id args', c.event.event = .deleted id args' → ∃ e ∈ gone, e.id = id

/-- Where a batch stands: what it has deleted so far and what it still has to visit. -/
def PurgePc.Follows (s : State) (t : TxnId) (T : Txn) (args : PurgeArgs) : PurgePc → Prop
  | .begin => T.changes = []
  | .deleting todo deleted => ∃ gone, Purging s t T args gone ∧ deleted = gone.map (fun e => e.row.status) ∧
      (gone.map JobEntry.id ++ todo.map Prod.fst).Nodup ∧ gone.length + todo.length ≤ args.batchSize ∧
      ∀ c ∈ T.changes, ∃ e ∈ gone, e.id = c.event.event.jobId
  | .cascading todo deleted => ∃ gone, Purging s t T args gone ∧ deleted = gone.map (fun e => e.row.status) ∧
      gone.length ≤ args.batchSize ∧ ∀ id ∈ todo, (∃ c ∈ s.log, c.event.jobId = id) ∧
        ∀ entry, (T.view s).get id = some entry → entry.row.replayedFromJobId ≠ none → ReplaysOneOf gone entry
  | .finished deleted => ∃ gone, Purging s t T args gone ∧ deleted = gone.map (fun e => e.row.status) ∧
      gone.length ≤ args.batchSize

/-- An open batch follows the program. -/
def PurgeFollows (s : State) (t : TxnId) (T : Txn) : Prop :=
  ∀ args pc, T.task = .purge args pc → pc.Follows s t T args

/-! ## The others -/

/-- No update makes a job the replay of another one. -/
theorem JobActs.replaysOneOf {gone : List JobEntry} (op : LogEntry) (before after : JobEntry)
    (h : JobActs op (some before) (some after))
    (hbefore : before.row.replayedFromJobId ≠ none → ReplaysOneOf gone before)
    (hafter : after.row.replayedFromJobId ≠ none) : ReplaysOneOf gone after := by
  cases h with
  | claimed _ hx =>
    have hsame := congrArg (fun x => x.job.replayedFromJobId) hx
    obtain ⟨e, he, hsource⟩ := hbefore fun hnone => hafter (hsame.trans hnone)
    exact ⟨e, he, hsame.trans hsource⟩
  | unlinked => exact absurd rfl hafter
  | _ => exact hbefore hafter

/-- The others neither restore nor delete what a batch has locked. -/
theorem Purging.elsewhere {gone : List JobEntry} (h : Purging s t T args gone) (he : Elsewhere s s' t T)
    (hT' : TxnOk s' t T) : Purging s' t T args gone := by
  have hview {id : JobId} (hlock : s.jobLocks id = some t) : (T.view s').get id = (T.view s).get id :=
    he.view id (he.jobs id hlock)
  have hfree {id : JobId} (hlock : s.jobLocks id ≠ some t) : (T.view s').get id = s'.jobs.get id :=
    hT'.view_of_unlocked fun hheld => hlock ((he.jobLocks id).mp hheld)
  refine ⟨fun e hmem => ?_, h.nodup, fun id entry hget => ?_, fun id hnone => ?_, h.events⟩
  · obtain ⟨hlock, hget, hnone, hpurge⟩ := h.deleted e hmem
    exact ⟨(he.jobLocks _).mpr hlock, (he.jobs _ hlock).trans hget, (hview hlock).trans hnone, hpurge⟩
  · by_cases hlock : s.jobLocks id = some t
    · rw [he.jobs id hlock] at hget
      rw [hview hlock]
      exact h.rows id entry hget
    · exact .inr (.inl ((hfree hlock).trans hget))
  · by_cases hlock : s.jobLocks id = some t
    · rw [hview hlock]
      exact h.known id ((he.jobs id hlock).symm.trans hnone)
    · exact (hfree hlock).trans hnone

/-- What an action leaves of a job that has been logged and that no open transaction has locked: the
row it was, updated at most. -/
theorem Reachable.keeps_of_step {a : Action} (h : Reachable s) (hs : step s a = some s') {id : JobId}
    (hlogged : ∃ c ∈ s.log, c.event.jobId = id) {after : JobEntry} (hafter : s'.jobs.get id = some after) :
    ∃ before, s.jobs.get id = some before ∧ ∀ Q : JobEntry → Prop,
      (∀ op b a, JobActs op (some b) (some a) → Q b → Q a) → Q before → Q after := by
  rcases jobs_of_step hs with ⟨u, U, rfl, hU, -, rfl⟩ | ⟨-, hjobs, -⟩
  · exact Evolves.keeps ((h.inv.txn u U hU).consistent.evolves id)
      (fun _ hop => (h.inv.txn u U hU).not_inserted hlogged hop) hafter
  · rw [hjobs] at hafter
    exact ⟨after, hafter, fun _ _ hQ => hQ⟩

/-- While a batch waits, the others keep what it still has to visit as it expects it. -/
theorem PurgeFollows.elsewhere {a : Action} (h : PurgeFollows s t T) (hreach : Reachable s)
    (hs : step s a = some s') (hT : s.txns t = some T) (hT' : s'.txns t = some T)
    (he : Elsewhere s s' t T) : PurgeFollows s' t T := by
  have hok' := (hreach.tail hs).inv.txn t T hT'
  intro args pc hpc
  have hfollows := h args pc hpc
  cases pc with
  | begin => exact hfollows
  | deleting todo deleted =>
    obtain ⟨gone, hpurging, hdeleted, hrest⟩ := hfollows
    exact ⟨gone, hpurging.elsewhere he hok', hdeleted, hrest⟩
  | cascading todo deleted =>
    obtain ⟨gone, hpurging, hdeleted, hlength, htodo⟩ := hfollows
    refine ⟨gone, hpurging.elsewhere he hok', hdeleted, hlength, fun id hid => ?_⟩
    obtain ⟨⟨c, hc, hcid⟩, hreplays⟩ := htodo id hid
    obtain ⟨rest, hlog⟩ := he.log
    refine ⟨⟨c, by rw [hlog]; exact List.mem_append_left _ hc, hcid⟩, fun entry hentry => ?_⟩
    by_cases hlock : s.jobLocks id = some t
    · rw [he.view id (he.jobs id hlock)] at hentry
      exact hreplays entry hentry
    · rw [hok'.view_of_unlocked fun hheld => hlock ((he.jobLocks id).mp hheld)] at hentry
      obtain ⟨before, hbefore, hkeeps⟩ := hreach.keeps_of_step hs ⟨c, hc, hcid⟩ hentry
      refine hkeeps (fun entry => entry.row.replayedFromJobId ≠ none → ReplaysOneOf gone entry)
        JobActs.replaysOneOf (hreplays before ?_)
      rw [(hreach.inv.txn t T hT).view_of_unlocked hlock]
      exact hbefore
  | finished deleted =>
    obtain ⟨gone, hpurging, hrest⟩ := hfollows
    exact ⟨gone, hpurging.elsewhere he hok', hrest⟩

/-! ## The steps of a batch -/

/-- The jobs a batch picks are pairwise distinct, and at most as many as it may delete. -/
theorem nodup_purgeCandidates (now : Timestamp) (args : PurgeArgs) (jobs : JobTable) :
    ((purgeCandidates now args jobs).map Prod.fst).Nodup := by
  have hrows : ((jobs.rows.filter fun entry => decide (Purgeable now args entry.row)).map JobEntry.id).Nodup :=
    (List.filter_sublist.map _).nodup jobs.nodup
  have hperm := List.perm_insertionSort (fun a b : JobEntry => a.row.completedAt.getD 0 ≤ b.row.completedAt.getD 0)
    (jobs.rows.filter fun entry => decide (Purgeable now args entry.row))
  have hsorted := (hperm.map JobEntry.id).nodup_iff.mpr hrows
  simpa [purgeCandidates, Function.comp_def] using ((List.take_sublist _ _).map _).nodup hsorted

/-- A purge has no more candidates than its batch. -/
theorem length_purgeCandidates_le (now : Timestamp) (args : PurgeArgs) (jobs : JobTable) :
    (purgeCandidates now args jobs).length ≤ args.batchSize := by
  simp [purgeCandidates]

/-- A batch that has written nothing has deleted nothing. -/
theorem purging_nil (hchanges : T.changes = []) : Purging s t T args [] := by
  have hview : T.view s = s.jobs := by rw [Txn.view, hchanges]; rfl
  refine ⟨by simp, by simp, fun id entry hget => ?_, fun id hnone => ?_, by simp [hchanges]⟩
  · exact .inr (.inl (hview ▸ hget))
  · rwa [hview]

/-- A step of the batch that writes nothing. -/
theorem Purging.quiet {gone : List JobEntry} (h : Purging s t T args gone) (hchanges : effect.changes = []) :
    Purging (s.perform t T effect) t (T.after effect) args gone := by
  have hview := view_perform_of_nil (s := s) (t := t) (T := T) hchanges
  refine ⟨fun e he => ?_, h.nodup, fun id entry hget => ?_, fun id hnone => ?_, ?_⟩
  · obtain ⟨hlock, hget, hnone, hpurge⟩ := h.deleted e he
    exact ⟨takeLock_of_held _ hlock, hget, by rw [hview]; exact hnone, hpurge⟩
  · rw [hview]
    exact h.rows id entry hget
  · rw [hview]
    exact h.known id hnone
  · simpa [Txn.after, hchanges] using h.events

/-- The deletion of a purgeable job. -/
theorem Purging.delete {gone : List JobEntry} {id : JobId} {entry : JobEntry} (h : Purging s t T args gone)
    (hok : EffectOk s t T effect) (hlock : effect.jobLock = some id)
    (hchanges : effect.changes = [⟨⟨t, T.now, .deleted id args⟩, none⟩]) (hget : s.jobs.get id = some entry)
    (hpurge : Purgeable T.now args entry.row) (hnew : id ∉ gone.map JobEntry.id) :
    Purging (s.perform t T effect) t (T.after effect) args (gone ++ [entry]) := by
  have hview (id' : JobId) : ((T.after effect).view (s.perform t T effect)).get id' =
      if id = id' then none else (T.view s).get id' := hok.get_view hchanges id'
  have hid : entry.id = id := Table.key_of_get hget
  refine ⟨fun e he => ?_, ?_, fun id' entry' hget' => ?_, fun id' hnone => ?_, fun c hc id' args' hevent => ?_⟩
  · rw [hview]
    rcases List.mem_append.mp he with hold | hlast
    · obtain ⟨hheld, hcommitted, hnone, hold'⟩ := h.deleted e hold
      refine ⟨takeLock_of_held _ hheld, hcommitted, ?_, hold'⟩
      split_ifs
      · rfl
      · exact hnone
    · obtain rfl := List.mem_singleton.mp hlast
      rw [hid]
      refine ⟨?_, hget, if_pos rfl, hpurge⟩
      change takeLock s.jobLocks t effect.jobLock id = some t
      rw [hlock]
      exact takeLock_self _ _ _
  · rw [List.map_append, List.nodup_append]
    refine ⟨h.nodup, by simp, fun a ha b hb heq => hnew ?_⟩
    rw [List.map_singleton, List.mem_singleton, hid] at hb
    rwa [← hb, ← heq]
  · rw [hview]
    by_cases heq : id = id'
    · subst heq
      obtain rfl : entry = entry' := Option.some.inj (hget.symm.trans hget')
      exact .inl (List.mem_append_right _ (List.mem_singleton_self _))
    · rw [if_neg heq]
      rcases h.rows id' entry' hget' with hold | hsame | ⟨hunlinked, e, he, hsource⟩
      · exact .inl (List.mem_append_left _ hold)
      · exact .inr (.inl hsame)
      · exact .inr (.inr ⟨hunlinked, e, List.mem_append_left _ he, hsource⟩)
  · rw [hview]
    split_ifs
    · rfl
    · exact h.known id' hnone
  · rcases List.mem_append.mp hc with hold | hlast
    · obtain ⟨e, he, heq⟩ := h.events c hold id' args' hevent
      exact ⟨e, List.mem_append_left _ he, heq⟩
    · rw [hchanges, List.mem_singleton] at hlast
      subst hlast
      obtain ⟨rfl, -⟩ := JobEvent.deleted.inj hevent
      exact ⟨entry, List.mem_append_right _ (List.mem_singleton_self _), hid⟩

/-- Clearing the reference of a replay whose source has been deleted. -/
theorem Purging.unlink {gone : List JobEntry} {id : JobId} {entry : JobEntry} (h : Purging s t T args gone)
    (hok : EffectOk s t T effect)
    (hchanges : effect.changes = [⟨⟨t, T.now, .unlinked id⟩, some (unlinked entry)⟩])
    (hget : (T.view s).get id = some entry)
    (hreplays : entry.row.replayedFromJobId ≠ none → ReplaysOneOf gone entry) :
    Purging (s.perform t T effect) t (T.after effect) args gone := by
  have hview (id' : JobId) : ((T.after effect).view (s.perform t T effect)).get id' =
      if id = id' then some (unlinked entry) else (T.view s).get id' := hok.get_view hchanges id'
  refine ⟨fun e he => ?_, h.nodup, fun id' entry' hget' => ?_, fun id' hnone => ?_, fun c hc id' args' hevent => ?_⟩
  · obtain ⟨hheld, hcommitted, hnone, hpurge⟩ := h.deleted e he
    refine ⟨takeLock_of_held _ hheld, hcommitted, ?_, hpurge⟩
    rw [hview, if_neg]
    · exact hnone
    · rintro rfl
      cases hnone.symm.trans hget
  · rw [hview]
    by_cases heq : id = id'
    · subst heq
      rw [if_pos rfl]
      rcases h.rows id entry' hget' with hgone | hsame | ⟨hunlinked, hold⟩
      · exact .inl hgone
      · obtain rfl : entry = entry' := Option.some.inj (hget.symm.trans hsame)
        by_cases hnone : entry.row.replayedFromJobId = none
        · refine .inr (.inl (congrArg some ?_))
          simp [unlinked, unlinkReplay, ← hnone]
        · exact .inr (.inr ⟨rfl, hreplays hnone⟩)
      · obtain rfl : entry = unlinked entry' := Option.some.inj (hget.symm.trans hunlinked)
        exact .inr (.inr ⟨rfl, hold⟩)
    · rw [if_neg heq]
      exact h.rows id' entry' hget'
  · rw [hview]
    split_ifs with heq
    · subst heq
      cases (h.known id hnone).symm.trans hget
    · exact h.known id' hnone
  · rcases List.mem_append.mp hc with hold | hlast
    · exact h.events c hold id' args' hevent
    · rw [hchanges, List.mem_singleton] at hlast
      subst hlast
      cases hevent

/-- A step that comes to a point of a batch is a step of that batch. -/
theorem Steps.purge_of_task (h : Steps s t T effect) {pc' : PurgePc} (htask : effect.task = .purge args pc') :
    ∃ pc, T.task = .purge args pc ∧ purgeStatement s t T args pc = some effect := by
  have hleads := h.leadsTo
  rw [htask] at hleads
  obtain ⟨pc, hT⟩ := hleads.purge
  refine ⟨pc, hT, ?_⟩
  rcases h with he | he | ⟨job, he⟩
  · simpa only [statement, hT] using he
  · simp [scanStatement, hT] at he
  · simp [enqueueMore, hT] at he

/-- The jobs whose reference a batch clears replay jobs that it has deleted. -/
theorem replaysOneOf_of_mem_danglingReplays {gone : List JobEntry} {id : JobId} {entry : JobEntry}
    (hgone : ∀ c ∈ T.changes, ∃ e ∈ gone, e.id = c.event.event.jobId) (hid : id ∈ danglingReplays T s)
    (hget : (T.view s).get id = some entry) : ReplaysOneOf gone entry := by
  unfold danglingReplays at hid
  obtain ⟨entry', hmem, rfl⟩ := List.mem_map.mp hid
  obtain ⟨hrow, hdangling⟩ := List.mem_filter.mp hmem
  obtain rfl : entry' = entry := Option.some.inj ((Table.get_of_mem hrow).symm.trans hget)
  simp only [Option.any_eq_true, List.any_eq_true, decide_eq_true_eq] at hdangling
  obtain ⟨source, hsource, c, hc, hcid⟩ := hdangling
  obtain ⟨e, he, heid⟩ := hgone c hc
  exact ⟨e, he, by rw [hsource, heid, hcid]⟩

/-- A job that a batch still has to delete is to it as committed. -/
theorem committed_of_not_gone {gone : List JobEntry} {id : JobId} {entry : JobEntry} (hT : TxnOk s t T)
    (hgone : ∀ c ∈ T.changes, ∃ e ∈ gone, e.id = c.event.event.jobId) (hnew : id ∉ gone.map JobEntry.id)
    (hget : (T.view s).get id = some entry) : s.jobs.get id = some entry := by
  rw [← hget]
  refine (hT.consistent.get_of_untouched fun c hc htarget => hnew ?_).symm
  obtain ⟨e, he, heid⟩ := hgone c hc
  exact List.mem_map.mpr ⟨e, he, heid.trans htarget⟩

/-- The next job of a batch is deleted. -/
theorem PurgePc.Follows.delete {id : JobId} {status : JobStatus} {todo : List (JobId × JobStatus)}
    {deleted : List JobStatus} {entry : JobEntry}
    (h : PurgePc.Follows s t T args (.deleting ((id, status) :: todo) deleted)) (hT : TxnOk s t T)
    (hok : EffectOk s t T effect) (hlock : effect.jobLock = some id)
    (hchanges : effect.changes = [⟨⟨t, T.now, .deleted id args⟩, none⟩]) (hget : (T.view s).get id = some entry)
    (hpurge : Purgeable T.now args entry.row) (hstatus : entry.row.status = status) :
    PurgePc.Follows (s.perform t T effect) t (T.after effect) args (.deleting todo (deleted ++ [status])) := by
  obtain ⟨gone, hpurging, hdeleted, hnodup, hlength, hgone⟩ := h
  have hnew : id ∉ gone.map JobEntry.id := fun hmem =>
    (List.nodup_append.mp hnodup).2.2 id hmem id (by simp) rfl
  have hcommitted := committed_of_not_gone hT hgone hnew hget
  refine ⟨gone ++ [entry], hpurging.delete hok hlock hchanges hcommitted hpurge hnew, ?_, ?_, ?_, fun c hc => ?_⟩
  · simp [hdeleted, hstatus]
  · simpa [Table.key_of_get hcommitted] using hnodup
  · simp at hlength ⊢
    omega
  · rcases List.mem_append.mp hc with hold | hlast
    · obtain ⟨e, he, heid⟩ := hgone c hold
      exact ⟨e, List.mem_append_left _ he, heid⟩
    · rw [hchanges, List.mem_singleton] at hlast
      subst hlast
      exact ⟨entry, List.mem_append_right _ (List.mem_singleton_self _), Table.key_of_get hcommitted⟩

/-- The batch has come to the end of its deletions and turns to the replays of what it has deleted. -/
theorem PurgePc.Follows.cascade {deleted : List JobStatus} (h : PurgePc.Follows s t T args (.deleting [] deleted))
    (hinv : Inv s) (hchanges : effect.changes = []) :
    PurgePc.Follows (s.perform t T effect) t (T.after effect) args (.cascading (danglingReplays T s) deleted) := by
  obtain ⟨gone, hpurging, hdeleted, -, hlength, hgone⟩ := h
  refine ⟨gone, hpurging.quiet hchanges, hdeleted, hlength, fun id hid => ⟨?_, fun entry hget _ => ?_⟩⟩
  · obtain ⟨entry, hmem, rfl⟩ := List.mem_map.mp hid
    have hview := Table.get_of_mem (List.mem_filter.mp hmem).1
    cases hcommitted : s.jobs.get entry.id with
    | none => cases (hpurging.known _ hcommitted).symm.trans hview
    | some committed => exact hinv.logged hcommitted
  · rw [view_perform_of_nil hchanges] at hget
    exact replaysOneOf_of_mem_danglingReplays hgone hid hget

/-- The reference of the next replay is cleared. -/
theorem PurgePc.Follows.unlink {id : JobId} {todo : List JobId} {deleted : List JobStatus} {entry : JobEntry}
    (h : PurgePc.Follows s t T args (.cascading (id :: todo) deleted)) (hok : EffectOk s t T effect)
    (hchanges : effect.changes = [⟨⟨t, T.now, .unlinked id⟩, some (unlinked entry)⟩])
    (hget : (T.view s).get id = some entry) :
    PurgePc.Follows (s.perform t T effect) t (T.after effect) args (.cascading todo deleted) := by
  obtain ⟨gone, hpurging, hdeleted, hlength, htodo⟩ := h
  refine ⟨gone, hpurging.unlink hok hchanges hget ((htodo id List.mem_cons_self).2 entry hget), hdeleted, hlength,
    fun id' hid' => ?_⟩
  obtain ⟨hlogged, hreplays⟩ := htodo id' (List.mem_cons_of_mem _ hid')
  refine ⟨hlogged, fun entry' hget' hsource => ?_⟩
  rw [hok.get_view hchanges] at hget'
  split_ifs at hget'
  · obtain rfl := Option.some.inj hget'
    exact absurd rfl hsource
  · exact hreplays entry' hget' hsource

/-- Every step of a batch follows the program. -/
theorem PurgeFollows.step (h : PurgeFollows s t T) (hinv : Inv s) (hT : s.txns t = some T)
    (he : Steps s t T effect) : PurgeFollows (s.perform t T effect) t (T.after effect) := by
  intro args pc' hpc'
  obtain ⟨pc, hpc, hstatement⟩ := he.purge_of_task hpc'
  have htxn := hinv.txn t T hT
  have hok := he.ok hinv htxn
  have hfollows := h args pc hpc
  have htask := htxn.task
  simp only [TaskOk, hpc] at htask
  unfold purgeStatement at hstatement
  split at hstatement
  · cases hstatement
    obtain rfl := (Task.purge.inj hpc').2
    refine ⟨[], (purging_nil hfollows).quiet rfl, rfl, nodup_purgeCandidates _ _ _, ?_, ?_⟩
    · simpa using length_purgeCandidates_le T.now args (T.view s)
    · have hnil : T.changes = [] := hfollows
      simp [Txn.after, hnil]
  · cases hstatement
    obtain rfl := (Task.purge.inj hpc').2
    exact hfollows.cascade hinv rfl
  · rename_i id status todo deleted
    split_ifs at hstatement with hfree
    split at hstatement
    · -- Another batch has deleted the job in the meantime.
      cases hstatement
      obtain rfl := (Task.purge.inj hpc').2
      obtain ⟨gone, hpurging, hdeleted, hnodup, hlength, hgone⟩ := hfollows
      refine ⟨gone, hpurging.quiet rfl, hdeleted, ?_, by simp at hlength; omega, by simpa [Txn.after] using hgone⟩
      exact ((List.Sublist.refl _).append (List.sublist_cons_self id _)).nodup hnodup
    · rename_i entry hget
      cases hstatement
      obtain rfl := (Task.purge.inj hpc').2
      obtain ⟨hpurge, hstatus⟩ := (htask (id, status) List.mem_cons_self).2 entry hget
      exact hfollows.delete htxn hok rfl rfl hget hpurge hstatus
  · cases hstatement
    obtain rfl := (Task.purge.inj hpc').2
    obtain ⟨gone, hpurging, hdeleted, hlength, -⟩ := hfollows
    exact ⟨gone, hpurging.quiet rfl, hdeleted, hlength⟩
  · rename_i id todo deleted
    split_ifs at hstatement
    split at hstatement
    · cases hstatement
      obtain rfl := (Task.purge.inj hpc').2
      obtain ⟨gone, hpurging, hdeleted, hlength, htodo⟩ := hfollows
      refine ⟨gone, hpurging.quiet rfl, hdeleted, hlength, fun id' hid' => ?_⟩
      obtain ⟨hlogged, hreplays⟩ := htodo id' (List.mem_cons_of_mem _ hid')
      refine ⟨hlogged, fun entry hget => hreplays entry ?_⟩
      rwa [view_perform_of_nil rfl] at hget
    · rename_i entry hget
      cases hstatement
      obtain rfl := (Task.purge.inj hpc').2
      exact hfollows.unlink hok rfl hget
  · cases hstatement

/-- In every reachable state an open batch follows the program. -/
theorem Reachable.purgeFollows (h : Reachable s) (hT : s.txns t = some T) : PurgeFollows s t T := by
  obtain ⟨clock, hrun⟩ := h
  refine ReachesUnder.txn_rule (P := PurgeFollows) ?_ ?_ ?_ hrun t T hT
  · intro s request task hreach _ hr args pc hpc
    obtain rfl : pc = .begin := Request.atBegin (hr.trans (congrArg some hpc))
    rfl
  · exact fun s t T a effect hreach hT _ he hold => hold.step hreach.inv hT he.steps
  · intro s a s' t T hreach _ hs hT hT' he hold
    exact hold.elsewhere hreach hs hT hT' he

/-! ## What the batches report -/

/-- `PurgeResult`. -/
structure PurgeResult where
  succeeded : ℕ
  deadLetter : ℕ
  cancelled : ℕ
  deriving DecidableEq, Repr

/-- The result `purge_jobs` counts from the statuses that the statement returns. -/
def purgeResult (statuses : List JobStatus) : PurgeResult where
  succeeded := statuses.count .succeeded
  deadLetter := statuses.count .deadLetter
  cancelled := statuses.count .cancelled

/-- `PurgeResult.total`. -/
def PurgeResult.total (result : PurgeResult) : ℕ := result.succeeded + result.deadLetter + result.cancelled

/-- A committed batch: its `now()` and parameters, the result it returned, and the jobs, each with
its attempt rows, that its commit has removed from the tables. -/
structure PurgeRecord where
  now : Timestamp
  args : PurgeArgs
  result : PurgeResult
  removed : List JobEntry

/-- The jobs that are in one table and not in the other. -/
def removedRows (before after : JobTable) : List JobEntry :=
  before.rows.filter fun entry => (after.get entry.id).isNone

/-- An observer keeps a record of every committed batch. -/
def notePurges (records : List PurgeRecord) (s : State) (a : Action) (s' : State) : List PurgeRecord :=
  match a with
  | .commit t =>
    match s.txns t with
    | some ⟨now, .purge args (.finished deleted), _, _⟩ =>
      records ++ [⟨now, args, purgeResult deleted, removedRows s.jobs s'.jobs⟩]
    | _ => records
  | _ => records

/-- The removed rows are those that are there before and not after. -/
theorem mem_removedRows {before after : JobTable} {entry : JobEntry} :
    entry ∈ removedRows before after ↔ before.get entry.id = some entry ∧ after.get entry.id = none := by
  simp only [removedRows, List.mem_filter, Option.isNone_iff_eq_none, Table.get_eq_some_iff, and_true]

/-- Each of them once. -/
theorem nodup_removedRows (before after : JobTable) : ((removedRows before after).map JobEntry.id).Nodup :=
  (List.filter_sublist.map _).nodup before.nodup

/-- The commit of a finished batch removes what the batch has deleted. -/
theorem Purging.perm_removedRows {gone : List JobEntry} (h : Purging s t T args gone) :
    (removedRows s.jobs (T.view s)).Perm gone := by
  refine (List.perm_ext_iff_of_nodup (nodup_removedRows _ _).of_map h.nodup.of_map).mpr fun entry => ?_
  rw [mem_removedRows]
  constructor
  · rintro ⟨hget, hnone⟩
    rcases h.rows _ entry hget with hgone | hsame | ⟨hunlinked, -⟩
    · exact hgone
    · cases hnone.symm.trans hsame
    · cases hnone.symm.trans hunlinked
  · intro hgone
    obtain ⟨-, hget, hnone, -⟩ := h.deleted entry hgone
    exact ⟨hget, hnone⟩

/-- Purged jobs are succeeded, dead or cancelled, so each of them is counted. -/
theorem total_purgeResult {now : Timestamp} {entries : List JobEntry}
    (h : ∀ e ∈ entries, Purgeable now args e.row) :
    (purgeResult (entries.map fun e => e.row.status)).total = entries.length := by
  induction entries with
  | nil => rfl
  | cons e entries ih =>
    have hrest := ih fun e' he' => h e' (List.mem_cons_of_mem _ he')
    simp only [purgeResult, PurgeResult.total, List.map_cons, List.count_cons, List.length_cons] at hrest ⊢
    rcases h e List.mem_cons_self with ⟨hstatus, -⟩ | ⟨hstatus, -⟩ | ⟨hstatus, -⟩ <;> simp [hstatus] <;> omega

/-- The counts of a purge do not depend on the order of its rows. -/
theorem purgeResult_of_perm {statuses statuses' : List JobStatus} (h : statuses.Perm statuses') :
    purgeResult statuses = purgeResult statuses' := by
  simp only [purgeResult, h.count_eq]

/-- The records account for every deletion: each batch removes purgeable jobs, at most as many as it
may, and returns their number under each status; every deleted job is in one record and in no other. -/
structure PurgesCounted (s : State) (records : List PurgeRecord) : Prop where
  purgeable : ∀ r ∈ records, ∀ e ∈ r.removed, Purgeable r.now r.args e.row
  bounded : ∀ r ∈ records, r.removed.length ≤ r.args.batchSize
  counted : ∀ r ∈ records, r.result = purgeResult (r.removed.map fun e => e.row.status)
  total : ∀ r ∈ records, r.result.total = r.removed.length
  once : ((records.flatMap PurgeRecord.removed).map JobEntry.id).Nodup
  gone : ∀ e ∈ records.flatMap PurgeRecord.removed, (∃ c ∈ s.log, c.event.jobId = e.id) ∧ s.jobs.get e.id = none
  all : ∀ op ∈ s.log, ∀ id args, op.event = .deleted id args →
    id ∈ (records.flatMap PurgeRecord.removed).map JobEntry.id

/-- A job that has been deleted is not inserted again by a commit. -/
theorem TxnOk.view_eq_none {id : JobId} (hT : TxnOk s t T) (hlogged : ∃ c ∈ s.log, c.event.jobId = id)
    (hnone : s.jobs.get id = none) : (T.view s).get id = none := by
  cases hview : (T.view s).get id with
  | none => rfl
  | some after =>
    obtain ⟨before, hbefore, -⟩ := hT.view_settled hlogged hview
    cases hnone.symm.trans hbefore

/-- Only a finished batch commits the operations of a purge. -/
theorem Reachable.finished_of_isPurge (h : Reachable s) (hT : s.txns t = some T)
    (hcommit : T.task.committable = true) {e : JobEvent} (hmem : e ∈ T.events) (he : e.isPurge = true) :
    ∃ args deleted, T.task = .purge args (.finished deleted) := by
  obtain ⟨args, pc, htask⟩ := (h.writes hT).of_isPurge hmem he
  rw [htask] at hcommit ⊢
  cases pc with
  | finished deleted => exact ⟨args, deleted, rfl⟩
  | _ => cases hcommit

/-- What earlier batches have removed stays removed over a commit. -/
theorem PurgesCounted.gone_commit {records : List PurgeRecord} (h : PurgesCounted s records) (hT : TxnOk s t T)
    (e : JobEntry) (he : e ∈ records.flatMap PurgeRecord.removed) :
    (∃ c ∈ (s.commit t T).log, c.event.jobId = e.id) ∧ (s.commit t T).jobs.get e.id = none := by
  obtain ⟨⟨c, hc, hcid⟩, hnone⟩ := h.gone e he
  exact ⟨⟨c, List.mem_append_left _ hc, hcid⟩, hT.view_eq_none ⟨c, hc, hcid⟩ hnone⟩

/-- The commit of a batch adds the record of what it removes. -/
theorem notePurges_batch {records : List PurgeRecord} {deleted : List JobStatus} (hT : s.txns t = some T)
    (htask : T.task = .purge args (.finished deleted)) : notePurges records s (.commit t) (s.commit t T) =
      records ++ [⟨T.now, args, purgeResult deleted, removedRows s.jobs (T.view s)⟩] := by
  obtain ⟨now, task, changes, queueWrites⟩ := T
  subst htask
  simp only [notePurges, hT]
  rfl

/-- The commit of a batch keeps the account. -/
theorem PurgesCounted.commit_batch {records : List PurgeRecord} {deleted : List JobStatus}
    (h : PurgesCounted s records) (hreach : Reachable s) (hT : s.txns t = some T)
    (htask : T.task = .purge args (.finished deleted)) :
    PurgesCounted (s.commit t T) (notePurges records s (.commit t) (s.commit t T)) := by
  obtain ⟨gone, hpurging, hdeleted, hlength⟩ := hreach.purgeFollows hT args _ htask
  have hperm := hpurging.perm_removedRows
  have hpurgeable (e : JobEntry) (he : e ∈ removedRows s.jobs (T.view s)) : Purgeable T.now args e.row :=
    (hpurging.deleted e (hperm.mem_iff.mp he)).2.2.2
  have hcounted : purgeResult deleted =
      purgeResult ((removedRows s.jobs (T.view s)).map fun e => e.row.status) := by
    rw [hdeleted]
    exact purgeResult_of_perm (hperm.symm.map _)
  rw [notePurges_batch hT htask]
  refine ⟨?_, ?_, ?_, ?_, ?_, ?_, ?_⟩
  · exact List.forall_mem_append.mpr ⟨h.purgeable, List.forall_mem_singleton.mpr hpurgeable⟩
  · exact List.forall_mem_append.mpr ⟨h.bounded, List.forall_mem_singleton.mpr (hperm.length_eq.trans_le hlength)⟩
  · exact List.forall_mem_append.mpr ⟨h.counted, List.forall_mem_singleton.mpr hcounted⟩
  · refine List.forall_mem_append.mpr ⟨h.total, List.forall_mem_singleton.mpr ?_⟩
    exact (congrArg PurgeResult.total hcounted).trans (total_purgeResult hpurgeable)
  · -- What this commit removes was in the table, what earlier ones have removed was not.
    simp only [List.flatMap_append, List.flatMap_singleton, List.map_append]
    refine List.nodup_append.mpr ⟨h.once, nodup_removedRows _ _, fun a ha b hb heq => ?_⟩
    obtain ⟨e, he, rfl⟩ := List.mem_map.mp ha
    obtain ⟨e', he', rfl⟩ := List.mem_map.mp hb
    have hnone := (h.gone e he).2
    rw [heq, (mem_removedRows.mp he').1] at hnone
    cases hnone
  · intro e he
    simp only [List.flatMap_append, List.flatMap_singleton, List.mem_append] at he
    rcases he with hold | hnew
    · exact h.gone_commit (hreach.inv.txn t T hT) e hold
    · obtain ⟨hget, hnone⟩ := mem_removedRows.mp hnew
      obtain ⟨c, hc, hcid⟩ := hreach.inv.logged hget
      exact ⟨⟨c, List.mem_append_left _ hc, hcid⟩, hnone⟩
  · intro op hop id args' hevent
    simp only [List.flatMap_append, List.flatMap_singleton, List.map_append, List.mem_append]
    rcases List.mem_append.mp hop with hold | hnew
    · exact .inl (h.all op hold id args' hevent)
    · obtain ⟨c, hc, rfl⟩ := List.mem_map.mp hnew
      obtain ⟨e, he, rfl⟩ := hpurging.events c hc id args' hevent
      exact .inr (List.mem_map_of_mem (hperm.mem_iff.mpr he))

/-- The commit of any other transaction deletes nothing. -/
theorem PurgesCounted.commit_other {records : List PurgeRecord} (h : PurgesCounted s records)
    (hreach : Reachable s) (hT : s.txns t = some T) (hcommit : T.task.committable = true)
    (hpurge : ¬ ∃ args deleted, T.task = .purge args (.finished deleted)) :
    PurgesCounted (s.commit t T) (notePurges records s (.commit t) (s.commit t T)) := by
  have hnote : notePurges records s (.commit t) (s.commit t T) = records := by
    simp only [notePurges, hT]
    split
    · rename_i heq
      obtain rfl := Option.some.inj heq
      exact absurd ⟨_, _, rfl⟩ hpurge
    · rfl
  rw [hnote]
  refine ⟨h.purgeable, h.bounded, h.counted, h.total, h.once, h.gone_commit (hreach.inv.txn t T hT),
    fun op hop id args hevent => ?_⟩
  rcases List.mem_append.mp hop with hold | hnew
  · exact h.all op hold id args hevent
  · obtain ⟨c, hc, rfl⟩ := List.mem_map.mp hnew
    have hmem : .deleted id args ∈ T.events := List.mem_map.mpr ⟨c, hc, hevent⟩
    exact absurd (hreach.finished_of_isPurge hT hcommit hmem rfl) hpurge

/-- Every action keeps the account. -/
theorem PurgesCounted.step {records : List PurgeRecord} {a : Action} (h : PurgesCounted s records)
    (hreach : Reachable s) (hs : step s a = some s') : PurgesCounted s' (notePurges records s a s') := by
  rcases jobs_of_step hs with ⟨t, T, rfl, hT, hcommit, rfl⟩ | ⟨hother, hjobs, hlog⟩
  · by_cases hpurge : ∃ args deleted, T.task = .purge args (.finished deleted)
    · obtain ⟨args, deleted, htask⟩ := hpurge
      exact h.commit_batch hreach hT htask
    · exact h.commit_other hreach hT hcommit hpurge
  · have hnote : notePurges records s a s' = records := by
      cases a with
      | commit t => exact absurd rfl (hother t)
      | _ => rfl
    rw [hnote]
    refine ⟨h.purgeable, h.bounded, h.counted, h.total, h.once, ?_, ?_⟩
    · rw [hlog, hjobs]
      exact h.gone
    · rw [hlog]
      exact h.all

/-- A job of which nothing is left has been deleted. -/
theorem JobHistory.exists_deleted {id : JobId} {log : List LogEntry} {row : Option JobEntry}
    (h : JobHistory id log row) (hrow : row = none) (hlog : log ≠ []) :
    ∃ op ∈ log, ∃ args, op.event = .deleted id args := by
  cases h with
  | nil => exact absurd rfl hlog
  | @snoc _ op _ _ _ hacts _ hid =>
    subst hrow
    cases hacts with
    | @deleted _ _ id' args =>
      obtain rfl : id' = id := hid
      exact ⟨_, List.mem_append_right _ (List.mem_singleton_self _), args, rfl⟩

/-- What the commit of a finished batch makes of the committed jobs: it removes some with their
attempt rows, clears the references of others to these, and leaves the rest as it is. -/
def PurgeSpares (s : State) : Prop :=
  ∀ t T args deleted, s.txns t = some T → T.task = .purge args (.finished deleted) →
    ∀ id entry, s.jobs.get id = some entry → entry ∈ removedRows s.jobs (s.commit t T).jobs ∨
      (s.commit t T).jobs.get id = some entry ∨ (s.commit t T).jobs.get id = some (unlinked entry) ∧
        ∃ source ∈ removedRows s.jobs (s.commit t T).jobs, entry.row.replayedFromJobId = some source.id

/-- Whatever runs at the same time, purge batches delete only purgeable jobs, stay within their size,
count every deleted job once and under its own status, and spare everything else. -/
theorem purge_exact {clock : Timestamp} {records : List PurgeRecord}
    (h : Reaches (observed step notePurges) (State.init clock, []) (s, records)) :
    PurgesCounted s records ∧ PurgeSpares s ∧ ∀ id, (∃ op ∈ s.log, op.event.jobId = id) → s.jobs.get id = none →
      id ∈ (records.flatMap PurgeRecord.removed).map JobEntry.id := by
  obtain ⟨hreach, hcounted⟩ : Reachable s ∧ PurgesCounted s records := by
    refine h.observed_invariant (fun _ _ => True)
      (I := fun s records => Reachable s ∧ PurgesCounted s records) ⟨⟨clock, .refl⟩, ?_⟩ ?_
    · constructor <;> simp [State.init]
    · rintro s records a s' ⟨hreach, hcounted⟩ - hs
      exact ⟨hreach.tail hs, hcounted.step hreach hs⟩
  refine ⟨hcounted, ?_, ?_⟩
  · intro t T args deleted hT htask id entry hget
    obtain ⟨gone, hpurging, -⟩ := hreach.purgeFollows hT args _ htask
    have hperm : (removedRows s.jobs (s.commit t T).jobs).Perm gone := hpurging.perm_removedRows
    rcases hpurging.rows id entry hget with hgone | hsame | ⟨hunlinked, e, he, hsource⟩
    · exact .inl (hperm.mem_iff.mpr hgone)
    · exact .inr (.inl hsame)
    · exact .inr (.inr ⟨hunlinked, e, hperm.mem_iff.mpr he, hsource⟩)
  · rintro id ⟨op, hop, hid⟩ hnone
    have hlog : jobLog s.log id ≠ [] := by
      intro hnil
      have hmem : op ∈ jobLog s.log id := List.mem_filter.mpr ⟨hop, by simpa using hid⟩
      rw [hnil] at hmem
      cases hmem
    obtain ⟨op', hop', args, hevent⟩ := (hreach.jobHistory id).exists_deleted hnone hlog
    exact hcounted.all op' (List.mem_filter.mp hop').1 id args hevent

/-- Three cancelled jobs, one of them with a replay, and two overlapping batches that pick the same
jobs. -/
def overlappingPurges : List Action :=
  transaction 0 (.enqueue (handlerJob "mail" 2)) 5 ++ transaction 1 (.enqueue (handlerJob "mail" 2)) 5 ++
    transaction 2 (.enqueue (handlerJob "mail" 2)) 5 ++ transaction 3 (.cancel 0) 3 ++
    transaction 4 (.cancel 1) 3 ++ transaction 5 (.cancel 2) 3 ++ transaction 6 (.replay 0 false) 6 ++
    .tick (8 * 86400 * 1000000) :: .begin (.purge ⟨7, 7, 2⟩) :: .begin (.purge ⟨7, 7, 2⟩) :: .advance 7 ::
    .advance 8 :: .advance 7 :: .advance 7 :: .advance 7 :: .advance 7 :: .advance 7 :: .commit 7 ::
    List.replicate 4 (.advance 8) ++ [.commit 8]

/-- Two overlapping purges of the same jobs, of which only one deletes them. -/
theorem purge_exact_overlappingPurges : ∃ s records,
    run (observed step notePurges) (State.init 0, []) overlappingPurges = some (s, records) ∧
      records.map PurgeRecord.result = [⟨0, 0, 2⟩, ⟨0, 0, 0⟩] ∧ PurgesCounted s records ∧ PurgeSpares s := by
  have hrun : (run (observed step notePurges) (State.init 0, []) overlappingPurges).map
      (fun sh => sh.2.map PurgeRecord.result) = some [⟨0, 0, 2⟩, ⟨0, 0, 0⟩] := by
    decide +kernel
  obtain ⟨⟨s, records⟩, hs, hresults⟩ := Option.map_eq_some_iff.mp hrun
  obtain ⟨hcounted, hspares, -⟩ := purge_exact (reaches_of_run hs)
  exact ⟨s, records, hs, hresults, hcounted, hspares⟩

end PgRelay
