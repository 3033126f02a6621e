import PgRelay.References
import PgRelay.HttpExecutor

/-!
# The lineage of a job

A replay can be replayed, and the jobs in between can be purged. Whatever is left of such a chain, every
job in it was once asked for by a client, and what the workers run is what the client has asked for: the
payload is copied from row to row and no statement ever changes it.
-/

namespace PgRelay

open RowStore

variable {s s' : State} {t : TxnId} {T : Txn} {effect : Effect} {id : JobId} {job : NewJob}

/-- The replays that a transaction is inserting, and those it has inserted, are copies of logged jobs. -/
structure InsertsCopies (s : State) (_ : TxnId) (T : Txn) : Prop where
  inserting : ∀ job pc, T.task = .insert job pc → ∀ source, job.replayedFromJobId = some source →
    CopyOf s.log source job
  inserted : ∀ id job, .inserted id job ∈ T.events → ∀ source, job.replayedFromJobId = some source →
    CopyOf s.log source job

/-- Every step keeps the inserted replays copies of logged jobs. -/
theorem InsertsCopies.step {a : Action} (h : InsertsCopies s t T) (hreach : Reachable s) (hT : s.txns t = some T)
    (he : StepsBy s t T a effect) : InsertsCopies (s.perform t T effect) t (T.after effect) where
  inserting job pc' htask source hsource := by
    rcases he.steps.insertMove_of_task htask with rfl | ⟨pc, hpc, -⟩
    · rcases he.begin_insert htask with ⟨-, hnone⟩ | ⟨id, force, entry, hreplay, hget, rfl⟩
      · cases hnone.symm.trans hsource
      · have hwrites := hreach.writes hT
        rw [hreplay] at hwrites
        rw [Txn.view_eq_of_events s hwrites] at hget
        obtain rfl : entry.id = id := Table.key_of_get hget
        obtain rfl : entry.id = source := Option.some.inj hsource
        exact hreach.copyOf_replayJob hget
    · exact h.inserting job pc hpc source hsource
  inserted id job hinserted source hsource := by
    rcases mem_events_after.mp hinserted with hmem | ⟨c, hc, hevent⟩
    · exact h.inserted id job hmem source hsource
    · cases he.steps.referenceMove with
      | quiet _ hchanges =>
        have hupdate := hchanges c hc
        rw [hevent] at hupdate
        cases hupdate
      | insert _ _ hchanges htask =>
        rw [hchanges, List.mem_singleton] at hc
        subst hc
        obtain ⟨-, rfl⟩ := JobEvent.inserted.inj hevent
        rcases he.steps.insertMove_of_task htask with hpc | ⟨pc, hpc, -⟩
        · cases hpc
        · exact h.inserting _ pc hpc source hsource
      | purge htask hpurge => exact absurd ⟨c, hc, hevent⟩ (purgeStatement_not_inserted hpurge)

/-- Every replay that an open transaction inserts is a copy of a logged job. -/
theorem Reachable.insertsCopies (h : Reachable s) : ∀ t T, s.txns t = some T → InsertsCopies s t T := by
  obtain ⟨clock, hrun⟩ := h
  refine ReachesUnder.txn_rule ?_ ?_ ?_ hrun
  · intro s request task _ _ hr
    refine ⟨fun job pc htask source hsource => ?_, fun _ _ hmem => absurd hmem List.not_mem_nil⟩
    obtain rfl : task = .insert job pc := htask
    cases request with
    | enqueue job' =>
      simp only [Request.task] at hr
      split_ifs at hr with hnone
      obtain ⟨rfl, -⟩ := Task.insert.inj (Option.some.inj hr)
      cases hnone.symm.trans hsource
    | call i op =>
      obtain ⟨x, -, hx⟩ := Option.map_eq_some_iff.mp hr
      cases hx
    | _ => cases hr
  · intro s t T a effect hreach hT _ he hold
    exact hold.step hreach hT he
  · intro s a s' t T _ _ _ _ _ he hold
    obtain ⟨rest, hlog⟩ := he.log
    have hsub : s.log ⊆ s'.log := by simp [hlog]
    exact ⟨fun job pc htask source hsource => (hold.inserting job pc htask source hsource).mono hsub,
      fun id job hmem source hsource => (hold.inserted id job hmem source hsource).mono hsub⟩

/-- Every logged replay is a copy of a logged job. -/
theorem Reachable.copyOf_of_insertion (h : Reachable s) (hmem : (id, job) ∈ insertions s.log) {source : JobId}
    (hsource : job.replayedFromJobId = some source) : CopyOf s.log source job := by
  obtain ⟨clock, hrun⟩ := h
  suffices hinv : Reachable s ∧ ∀ id job, (id, job) ∈ insertions s.log → ∀ source,
      job.replayedFromJobId = some source → CopyOf s.log source job from hinv.2 id job hmem source hsource
  refine ReachesUnder.invariant (I := fun s => Reachable s ∧ ∀ id job, (id, job) ∈ insertions s.log → ∀ source,
      job.replayedFromJobId = some source → CopyOf s.log source job) hrun
    ⟨⟨clock, .refl⟩, fun _ _ hmem => by cases hmem⟩ ?_
  rintro s a s' ⟨hreach, hold⟩ - hs
  refine ⟨hreach.tail hs, fun id job hmem source hsource => ?_⟩
  rcases step_cases hs with ⟨elapsed, -, rfl⟩ | ⟨request, task, -, hr, rfl⟩ |
    ⟨u, U, effect, hU, he, rfl⟩ | ⟨u, U, -, hU, -, rfl⟩ | ⟨u, U, -, -, rfl⟩
  · exact hold id job hmem source hsource
  · exact hold id job hmem source hsource
  · exact hold id job hmem source hsource
  · suffices hcopy : CopyOf s.log source job from hcopy.mono (List.subset_append_left _ _)
    rcases mem_insertions_commit hmem with hlogged | hnew
    · exact hold id job hlogged source hsource
    · obtain ⟨op, hop, hevent⟩ := mem_insertions.mp hnew
      obtain ⟨c, hc, rfl⟩ := List.mem_map.mp hop
      exact (hreach.insertsCopies u U hU).inserted id job (List.mem_map.mpr ⟨c, hc, hevent⟩) source hsource
  · exact hold id job hmem source hsource

/-- The job has been inserted as the replay of the other one. -/
def ReplayOf (log : List LogEntry) (id source : JobId) : Prop :=
  ∃ job, (id, job) ∈ insertions log ∧ job.replayedFromJobId = some source

/-- A job comes, through any number of replays, from one that a client has enqueued; its row and every
execution of it have the contents of that one. -/
structure DescendsFrom (s : State) (id : JobId) (root : JobId) (original : NewJob) : Prop where
  replays : Relation.ReflTransGen (ReplayOf s.log) id root
  logged : (root, original) ∈ insertions s.log
  client : original.replayedFromJobId = none
  row : ∀ entry, s.jobs.get id = some entry → entry.row.contents = original.contents
  executions : ∀ x ∈ s.executions, x.job.id = id → x.job.contents = original.contents

/-- A job is inserted as the replay of at most one other job. -/
theorem ReplayOf.unique (hlog : LogOk s.log) {source source' : JobId} (h : ReplayOf s.log id source)
    (h' : ReplayOf s.log id source') : source = source' := by
  obtain ⟨job, hmem, hsource⟩ := h
  obtain ⟨job', hmem', hsource'⟩ := h'
  obtain rfl := hlog.insertion_unique hmem hmem'
  exact Option.some.inj (hsource.symm.trans hsource')

/-- Following the replays back leads to a job that is none, and its contents are those of all the others. -/
theorem Reachable.exists_root (h : Reachable s) {id : JobId} {job : NewJob} (hmem : (id, job) ∈ insertions s.log) :
    ∃ root original, Relation.ReflTransGen (ReplayOf s.log) id root ∧ (root, original) ∈ insertions s.log ∧
      original.replayedFromJobId = none ∧ job.contents = original.contents := by
  induction id using Nat.strong_induction_on generalizing job with
  | h id ih =>
    cases hsource : job.replayedFromJobId with
    | none => exact ⟨id, job, .refl, hmem, hsource, rfl⟩
    | some source =>
      obtain ⟨holder, -⟩ := h.staysLinked id job source hmem hsource
      obtain ⟨-, copied, hcopied, hcontents⟩ := h.copyOf_of_insertion hmem hsource
      obtain ⟨root, original, hreplays, hroot, hclient, hsame⟩ := ih source holder hcopied
      exact ⟨root, original, .head ⟨job, hmem, hsource⟩ hreplays, hroot, hclient, hcontents.trans hsame⟩

/-- Every job that has ever been inserted descends from exactly one client's request, also when the jobs
between them have been purged, and what is stored and what is run of it is what that client has sent. -/
theorem replay_lineage (h : Reachable s) {id : JobId} (hid : ∃ job, (id, job) ∈ insertions s.log) :
    ∃ root original, DescendsFrom s id root original ∧
      ∀ root' original', DescendsFrom s id root' original' → root' = root ∧ original' = original := by
  obtain ⟨job, hmem⟩ := hid
  have hlog := h.inv.logOk
  obtain ⟨root, original, hreplays, hroot, hclient, hcontents⟩ := h.exists_root hmem
  refine ⟨root, original, ⟨hreplays, hroot, hclient, fun entry hget => ?_, fun x hx hxid => ?_⟩,
    fun root' original' h' => ?_⟩
  · obtain ⟨job', hmem', hrow, -⟩ := h.inserted_of_get hget
    obtain rfl := hlog.insertion_unique hmem hmem'
    exact hrow.symm.trans hcontents
  · obtain ⟨job', hmem', hrow, -⟩ := h.inserted_of_execution hx
    rw [hxid] at hmem'
    obtain rfl := hlog.insertion_unique hmem hmem'
    exact hrow.symm.trans hcontents
  · -- A root is the replay of nothing, so of two roots neither lies behind the other.
    have hends {a b : JobId} {first : NewJob} (hab : Relation.ReflTransGen (ReplayOf s.log) a b)
        (hfirst : (a, first) ∈ insertions s.log) (hnone : first.replayedFromJobId = none) : a = b := by
      rcases hab.cases_head with heq | ⟨c, ⟨job', hmem', hsource⟩, -⟩
      · exact heq
      · obtain rfl := hlog.insertion_unique hfirst hmem'
        cases hnone.symm.trans hsource
    have hunique : Relator.RightUnique (ReplayOf s.log) := fun _ _ _ => ReplayOf.unique hlog
    have hroots : root' = root := by
      rcases h'.replays.total_of_right_unique hunique hreplays with hab | hab
      · exact hends hab h'.logged h'.client
      · exact (hends hab hroot hclient).symm
    subst hroots
    exact ⟨rfl, hlog.insertion_unique h'.logged hroot⟩

/-- A replay of a replay whose original has been purged. -/
theorem replay_lineage_purgedSource : ((stateAfter 0 purgedSource).jobs.get 0).isNone = true ∧
    ∃ root original, DescendsFrom (stateAfter 0 purgedSource) 2 root original ∧
      ∀ root' original', DescendsFrom (stateAfter 0 purgedSource) 2 root' original' →
        root' = root ∧ original' = original := by
  refine ⟨by decide +kernel, replay_lineage (reachable_stateAfter 0 purgedSource) ?_⟩
  have hids : 2 ∈ (insertions (stateAfter 0 purgedSource).log).map Prod.fst := by decide +kernel
  obtain ⟨⟨id, job⟩, hmem, rfl⟩ := List.mem_map.mp hids
  exact ⟨job, hmem⟩

end PgRelay
