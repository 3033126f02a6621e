import PgRelay.Isolation

/-!
# The unique index over queue names and idempotency keys

`insert_job` finds a taken key by its own conditional insert, which waits for the uncommitted
insertions of the same key. An open transaction holds the index entries of the jobs it has inserted and of the
one that it is inserting, so two transactions that have not seen each other's jobs never commit the same key. No
transaction, whatever it has written, sees two jobs of one key.
-/

namespace PgRelay

open RowStore

variable {s s' : State} {t : TxnId} {T : Txn} {effect : Effect}

/-! ## The index entry of a job -/

/-- The entry of a row in `uq_pgrelay_job_queue_idempotency_key`, which leaves out null keys. -/
def JobRow.indexKey (j : JobRow) : Option (QueueName × String) :=
  j.idempotencyKey.map fun key => (j.queueName, key)

/-- The index entry of a job to be inserted. -/
def NewJob.indexKey (job : NewJob) : Option (QueueName × String) :=
  job.idempotencyKey.map fun key => (job.queueName, key)

/-- The index entry of the job with an id, if there is such a job. -/
def indexKeyAt (jobs : JobTable) (id : JobId) : Option (QueueName × String) :=
  (jobs.get id).bind fun entry => entry.row.indexKey

/-- The unique index: no two jobs have the same entry. -/
def UniqueKeys (jobs : JobTable) : Prop :=
  ∀ id id' p, indexKeyAt jobs id = some p → indexKeyAt jobs id' = some p → id = id'

/-- No update changes the index entry of a job. -/
theorem JobActs.indexKey_eq {op : LogEntry} {before after : JobEntry}
    (h : JobActs op (some before) (some after)) : after.row.indexKey = before.row.indexKey := by
  cases h with
  | claimed _ hx => exact congrArg (fun x => x.job.indexKey) hx
  | _ => rfl

/-- The operations that create or delete a job. -/
def JobEvent.isUpdate : JobEvent → Bool
  | .inserted _ _ | .deleted _ _ => false
  | _ => true

/-- Operations that insert nothing find a job where they leave one, and keep of it whatever every
update keeps. -/
theorem Evolves.keeps {events : List LogEntry} {start row : Option JobEntry}
    (h : jobDynamics.Evolves events start row)
    (hinsert : ∀ op ∈ events, ∀ id job, op.event ≠ .inserted id job) {after : JobEntry}
    (hrow : row = some after) :
    ∃ before, start = some before ∧ ∀ Q : JobEntry → Prop,
      (∀ op b a, JobActs op (some b) (some a) → Q b → Q a) → Q before → Q after := by
  induction h generalizing after with
  | nil row => exact ⟨after, hrow, fun _ _ hQ => hQ⟩
  | @snoc events op start middle last _ hacts ih =>
    subst hrow
    cases middle with
    | none =>
      cases hacts
      exact absurd rfl (hinsert _ (List.mem_append_right _ (List.mem_singleton_self _)) _ _)
    | some middle =>
      obtain ⟨before, hbefore, hkeeps⟩ := ih (fun op' hop' => hinsert op' (List.mem_append_left _ hop')) rfl
      exact ⟨before, hbefore, fun Q hQ hstart => hQ op middle after hacts (hkeeps Q hQ hstart)⟩

/-- A column that no update writes is kept by all operations but insertions. -/
theorem Evolves.constant {α : Type} (column : JobRow → α)
    (hcolumn : ∀ op before after, JobActs op (some before) (some after) → column after.row = column before.row)
    {events : List LogEntry} {start row : Option JobEntry} (h : jobDynamics.Evolves events start row)
    (hinsert : ∀ op ∈ events, ∀ id job, op.event ≠ .inserted id job) {after : JobEntry}
    (hrow : row = some after) : ∃ before, start = some before ∧ column after.row = column before.row := by
  obtain ⟨before, hbefore, hkeeps⟩ := Evolves.keeps h hinsert hrow
  refine ⟨before, hbefore, hkeeps (fun entry => column entry.row = column before.row) ?_ rfl⟩
  intro op b a hacts hb
  exact (hcolumn op b a hacts).trans hb

/-- A lookup by key finds the job with that index entry. -/
theorem findByKey_eq_some {jobs : JobTable} {q : QueueName} {key : String} {entry : JobEntry}
    (h : findByKey jobs q key = some entry) :
    jobs.get entry.id = some entry ∧ entry.row.indexKey = some (q, key) := by
  refine ⟨Table.get_of_mem (List.mem_of_find?_eq_some h), ?_⟩
  have hkey := List.find?_some h
  simp only [decide_eq_true_eq] at hkey
  simp [JobRow.indexKey, hkey.1, hkey.2]

/-- A lookup by key that finds nothing shows that the entry is not in the index. -/
theorem findByKey_eq_none {jobs : JobTable} {q : QueueName} {key : String}
    (h : findByKey jobs q key = none) (id : JobId) : indexKeyAt jobs id ≠ some (q, key) := by
  intro hkey
  obtain ⟨entry, hget, hindex⟩ := Option.bind_eq_some_iff.mp hkey
  obtain ⟨hmem, -⟩ := (Table.get_eq_some_iff _ _ _).mp hget
  obtain ⟨key', hkey', heq⟩ := Option.map_eq_some_iff.mp hindex
  obtain ⟨hq, rfl⟩ := Prod.mk.inj heq
  have hnone := List.find?_eq_none.mp h entry hmem
  simp [hq, hkey'] at hnone

/-! ## The steps of an insertion -/

/-- What the steps of `insert_job` do to the job table and the index. -/
inductive InsertMove (s : State) (t : TxnId) (T : Txn) (job : NewJob) : InsertPc → Effect → Prop
  | upsert {effect : Effect} (htask : effect.task = .insert job .queueUpserted) (hchanges : effect.changes = [])
      (hlock : effect.keyLock = none)
      (hqueue : effect.queueWrites = [] ∧ (T.queueView s).get job.queueName ≠ none ∨
        effect.queueWrites = [newQueue T.now job.queueName]) : InsertMove s t T job .begin effect
  | readQueue (hqueue : (T.queueView s).get job.queueName ≠ none) :
      InsertMove s t T job .queueUpserted { task := .insert job .queueRead }
  | loseQueue (hqueue : (T.queueView s).get job.queueName = none) :
      InsertMove s t T job .queueUpserted { task := .insert job .failed }
  | reserve (hfree : ∀ p, job.indexKey = some p → Free s.keyLocks p t ∧ ∀ id, indexKeyAt (T.view s) id ≠ some p) :
      InsertMove s t T job .queueRead { task := .insert job .inserting, keyLock := job.indexKey }
  | share (hshareable : queueShareable s t job.queueName = true) :
      InsertMove s t T job .inserting { task := .insert job .queueChecked, queueShare := some job.queueName }
  | insert {effect : Effect} (hnew : insertNew s t T job = some effect) : InsertMove s t T job .queueChecked effect
  | conflict {p id} (hkey : job.indexKey = some p) (hfree : Free s.keyLocks p t)
      (htaken : indexKeyAt (T.view s) id = some p) :
      InsertMove s t T job .queueRead { task := .insert job .conflicted }
  | find {p entry} (hkey : job.indexKey = some p) (hget : (T.view s).get entry.id = some entry)
      (hfound : entry.row.indexKey = some p) :
      InsertMove s t T job .conflicted { task := .insert job (.finished entry.id false) }
  | lose (hlost : ∀ p, job.indexKey = some p → ∀ id, indexKeyAt (T.view s) id ≠ some p) :
      InsertMove s t T job .conflicted { task := .insert job .failed }

/-- The key of a job in the unique index is that of its row. -/
theorem indexKeyAt_of_get {jobs : JobTable} {id : JobId} {entry : JobEntry} (h : jobs.get id = some entry) :
    indexKeyAt jobs id = entry.row.indexKey := by
  simp [indexKeyAt, h]

/-- Every step of an insertion is one of its moves in the unique index. -/
theorem insertStatement_moves {job : NewJob} {pc : InsertPc}
    (he : insertStatement s t T job pc = some effect) : InsertMove s t T job pc effect := by
  unfold insertStatement at he
  split at he
  · obtain ⟨hknown, rfl⟩ | ⟨-, -, rfl⟩ := upsertQueue_cases he
    · exact .upsert rfl rfl rfl (.inl ⟨rfl, hknown⟩)
    · exact .upsert rfl rfl rfl (.inr rfl)
  · split at he
    · rename_i hnone
      cases he
      exact .loseQueue hnone
    · rename_i row hrow
      cases he
      exact .readQueue (by simp [hrow])
  · split at he
    · rename_i hnull
      cases he
      have hindex : job.indexKey = none := by simp [NewJob.indexKey, hnull]
      rw [← hindex]
      exact .reserve fun p hp => by simp [hindex] at hp
    · rename_i key hkey
      have hindex : job.indexKey = some (job.queueName, key) := by simp [NewJob.indexKey, hkey]
      split_ifs at he with hfree
      split at he
      · rename_i entry hfound
        split_ifs at he
        cases he
        obtain ⟨hget, hp⟩ := findByKey_eq_some hfound
        exact .conflict hindex hfree ((indexKeyAt_of_get hget).trans hp)
      · rename_i hnone
        cases he
        rw [← hindex]
        refine .reserve fun p hp => ?_
        obtain rfl := Option.some.inj (hindex.symm.trans hp)
        exact ⟨hfree, findByKey_eq_none hnone⟩
  · split_ifs at he with hshareable
    cases he
    exact .share hshareable
  · exact .insert he
  · split at he
    · rename_i hnone
      cases he
      refine .lose fun p hp => ?_
      obtain ⟨key, hkey, rfl⟩ := Option.map_eq_some_iff.mp hp
      exact findByKey_eq_none (by simpa [hkey] using hnone)
    · rename_i entry hsome
      cases he
      obtain ⟨key, hkey, hfound⟩ := Option.bind_eq_some_iff.mp hsome
      obtain ⟨hget, hp⟩ := findByKey_eq_some hfound
      exact .find (by simp [NewJob.indexKey, hkey]) hget hp
  · cases he
  · cases he

/-- Every step of an insertion is one of these, or the begin of the next one in the same session. -/
theorem Steps.insertMove (h : Steps s t T effect) {job : NewJob} {pc : InsertPc}
    (htask : T.task = .insert job pc) :
    InsertMove s t T job pc effect ∨ ∃ next, effect = { task := .insert next .begin } := by
  rcases h with he | he | ⟨next, he⟩
  · simp only [statement, htask] at he
    exact .inl (insertStatement_moves he)
  · simp [scanStatement, htask] at he
  · obtain ⟨done, pc, -, -, -, rfl⟩ := enqueueMore_cases he
    exact .inr ⟨next, rfl⟩

/-- A step that comes to a point of an insertion is its begin or a step of that insertion. -/
theorem Steps.insertMove_of_task (h : Steps s t T effect) {job : NewJob} {pc' : InsertPc}
    (htask : effect.task = .insert job pc') :
    pc' = .begin ∨ ∃ pc, T.task = .insert job pc ∧ InsertMove s t T job pc effect := by
  have hleads := h.leadsTo
  rw [htask] at hleads
  cases hT : T.task with
  | insert job' pc =>
    rcases h.insertMove hT with hmove | ⟨next, rfl⟩
    · rw [hT] at hleads
      rcases hleads with ⟨_, heq⟩ | ⟨_, heq⟩
      · obtain ⟨rfl, -⟩ := Task.insert.inj heq
        exact .inr ⟨pc, rfl, hmove⟩
      · exact .inl (Task.insert.inj heq).2
    · exact .inl (Task.insert.inj htask).2.symm
  | replay id force pc =>
    rw [hT] at hleads
    rcases hleads with ⟨_, heq⟩ | ⟨_, heq⟩
    · cases heq
    · exact .inl (Task.insert.inj heq).2
  | _ =>
    rw [hT] at hleads
    obtain ⟨_, heq⟩ := hleads
    cases heq

/-- What an insertion writes. -/
theorem insertNew_eq_some {job : NewJob} (h : insertNew s t T job = some effect) :
    effect.task = .insert job (.finished s.nextJob true) ∧ effect.keyLock = none ∧
      effect.changes = [⟨⟨t, T.now, .inserted s.nextJob job⟩, some ⟨insertJob s.nextJob T.now job, []⟩⟩] := by
  obtain ⟨-, -, rfl⟩ := insertNew_cases h
  exact ⟨rfl, rfl, rfl⟩

/-! ## The steps on the index -/

/-- What a call of `insert_job` has returned: the id of a row, and whether it has created that row. -/
structure Report where
  job : NewJob
  id : JobId
  created : Bool

/-- The report of a call that has just returned. -/
def Task.report : Task → List Report
  | .insert job (.finished id created) => [⟨job, id, created⟩]
  | _ => []

/-- The job that is being inserted: its index entry is taken, and its row is not written yet. -/
def Task.reserves : Task → Option NewJob
  | .insert job .inserting | .insert job .queueChecked => some job
  | _ => none

/-- What any step does to the index: nothing, the entry of a free key, the insertion of the job for it, or the
deletion of a job. A call that creates no job has found the one with its key. -/
inductive KeyMove (s : State) (t : TxnId) (T : Txn) (effect : Effect) : Prop
  | quiet (hlock : effect.keyLock = none) (hchanges : ∀ c ∈ effect.changes, c.event.event.isUpdate = true)
      (hreport : effect.task.report = [])
      (hreserves : ∀ job, effect.task.reserves = some job → T.task.reserves = some job)
  | reserve {job : NewJob} (hlock : effect.keyLock = job.indexKey) (hchanges : effect.changes = [])
      (htask : effect.task = .insert job .inserting)
      (hfree : ∀ p, job.indexKey = some p → Free s.keyLocks p t ∧ ∀ id, indexKeyAt (T.view s) id ≠ some p)
  | find {job p entry} (hlock : effect.keyLock = none) (hchanges : effect.changes = [])
      (htask : effect.task = .insert job (.finished entry.id false)) (hkey : job.indexKey = some p)
      (hget : (T.view s).get entry.id = some entry) (hfound : entry.row.indexKey = some p)
  | insert {job : NewJob} (hlock : effect.keyLock = none) (hreserved : T.task.reserves = some job)
      (htask : effect.task = .insert job (.finished s.nextJob true))
      (hchanges : effect.changes =
        [⟨⟨t, T.now, .inserted s.nextJob job⟩, some ⟨insertJob s.nextJob T.now job, []⟩⟩])
  | delete {id args entry} (hget : (T.view s).get id = some entry) (hlock : effect.keyLock = entry.row.indexKey)
      (hjob : Free s.jobLocks id t) (hchanges : effect.changes = [⟨⟨t, T.now, .deleted id args⟩, none⟩])
      (hreport : effect.task.report = []) (hreserves : effect.task.reserves = none)

/-- What a step of an insertion does to the index. -/
theorem InsertMove.keyMove {job : NewJob} {pc : InsertPc} (h : InsertMove s t T job pc effect)
    (hT : T.task = .insert job pc) : KeyMove s t T effect := by
  cases h with
  | upsert htask hchanges hlock =>
    exact .quiet hlock (by simp [hchanges]) (by rw [htask]; rfl) (by simp [htask, Task.reserves])
  | reserve hfree => exact .reserve rfl rfl rfl hfree
  | share => exact .quiet rfl (by simp) rfl (by simp [hT, Task.reserves])
  | insert hnew =>
    obtain ⟨htask, hlock, hchanges⟩ := insertNew_eq_some hnew
    exact .insert hlock (by simp [hT, Task.reserves]) htask hchanges
  | find hkey hget hfound => exact .find rfl rfl rfl hkey hget hfound
  | _ => exact .quiet rfl (by simp) rfl (by simp [Task.reserves])

/-- A claim round leaves the index alone. -/
theorem ClaimMove.keyMove {args : ClaimArgs} {pc : ClaimPc} (h : ClaimMove s t T args pc effect) :
    KeyMove s t T effect := by
  cases h with
  | recover _ _ htask _ _ hchanges hkey =>
    refine .quiet hkey (fun c hc => ?_) (by rw [htask]; rfl) (by simp [htask, Task.reserves])
    obtain ⟨id, hid⟩ := hchanges c hc
    rw [hid]
    rfl
  | claim _ =>
    refine .quiet rfl (fun c hc => ?_) rfl (by simp [Task.reserves])
    obtain ⟨entry, -, rfl⟩ := List.mem_map.mp hc
    rfl
  | _ => exact .quiet rfl (by simp) rfl (by simp [Task.reserves])

/-- A call of an execution updates its job. -/
theorem callChange_isUpdate (now : Timestamp) (x : Execution) (entry : JobEntry) (op : CallOp) :
    (callChange t now x entry op).event.event.isUpdate = true := by
  cases op <;> rfl

/-- A step of a purge deletes a job or leaves the index alone. -/
theorem purgeStatement_keyMove {args : PurgeArgs} {pc : PurgePc}
    (he : purgeStatement s t T args pc = some effect) : KeyMove s t T effect := by
  have hquiet {pc' : PurgePc} : KeyMove s t T { task := .purge args pc' } :=
    .quiet rfl (by simp) rfl (by simp [Task.reserves])
  unfold purgeStatement at he
  split at he
  · cases he; exact hquiet
  · cases he; exact hquiet
  · split_ifs at he with hfree
    split at he
    · cases he; exact hquiet
    · rename_i entry hget
      cases he; exact .delete hget rfl hfree.1 rfl rfl rfl
  · cases he; exact hquiet
  · split_ifs at he
    split at he
    · cases he; exact hquiet
    · cases he; exact .quiet rfl (by simp [JobEvent.isUpdate]) rfl (by simp [Task.reserves])
  · cases he

/-- Every step of every transaction is one of these. -/
theorem Steps.keyMove (h : Steps s t T effect) : KeyMove s t T effect := by
  by_cases hclaim : ∃ args pc, T.task = .claimLoop args pc
  · obtain ⟨args, pc, htask⟩ := hclaim
    exact (h.claimMove htask).keyMove
  · by_cases hinsert : ∃ job pc, T.task = .insert job pc
    · obtain ⟨job, pc, htask⟩ := hinsert
      rcases h.insertMove htask with hmove | ⟨next, rfl⟩
      · exact hmove.keyMove htask
      · exact .quiet rfl (by simp) rfl (by simp [Task.reserves])
    · rcases h with he | he | ⟨job, he⟩
      · unfold statement at he
        split at he
        · exact absurd ⟨_, _, ‹_›⟩ hclaim
        · obtain ⟨pc', -, rfl⟩ | ⟨entry, -, -, -, -, rfl⟩ := callStatement_cases he
          · exact .quiet rfl (by simp) rfl (by simp [Task.reserves])
          · exact .quiet rfl (by simp [callChange_isUpdate]) rfl (by simp [Task.reserves])
        · obtain ⟨pc', -, rfl⟩ | ⟨entry, -, -, -, -, rfl⟩ := cancelStatement_cases he
          · exact .quiet rfl (by simp) rfl (by simp [Task.reserves])
          · exact .quiet rfl (by simp [JobEvent.isUpdate]) rfl (by simp [Task.reserves])
        · exact absurd ⟨_, _, ‹_›⟩ hinsert
        · obtain ⟨-, ⟨pc', -, rfl⟩ | ⟨source, -, rfl⟩⟩ := replayStatement_cases he <;>
            exact .quiet rfl (by simp) rfl (by simp [Task.reserves])
        · obtain ⟨-, hupsert⟩ | ⟨pc', -, rfl⟩ | ⟨row, -, -, -, -, rfl⟩ := queueStatement_cases he
          · obtain ⟨-, rfl⟩ | ⟨-, -, rfl⟩ := upsertQueue_cases hupsert <;>
              exact .quiet rfl (by simp) rfl (by simp [Task.reserves])
          · exact .quiet rfl (by simp) rfl (by simp [Task.reserves])
          · exact .quiet rfl (by simp) rfl (by simp [Task.reserves])
        · exact purgeStatement_keyMove he
      · unfold scanStatement at he
        split at he
        · exact absurd ⟨_, _, ‹_›⟩ hclaim
        · cases he
      · obtain ⟨done, pc, htask, -⟩ := enqueueMore_cases he
        exact absurd ⟨done, pc, htask⟩ hinsert

/-! ## The index is unique -/

/-- Nobody sees two jobs of one key, and an open transaction holds the index entries of the jobs it
has inserted. While it is inserting a job it holds the entry and sees no other job with it. -/
structure KeysOk (s : State) : Prop where
  committed : UniqueKeys s.jobs
  views : ∀ t T, s.txns t = some T → UniqueKeys (T.view s)
  inserted : ∀ t T, s.txns t = some T → ∀ id p, indexKeyAt (T.view s) id = some p → s.jobs.get id = none →
    s.keyLocks p = some t
  reserved : ∀ t T, s.txns t = some T → ∀ job p, T.task.reserves = some job → job.indexKey = some p →
    s.keyLocks p = some t ∧ ∀ id, indexKeyAt (T.view s) id ≠ some p

/-- A transaction sees the index entry of a committed job as it is. -/
theorem TxnOk.indexKeyAt_view (hT : TxnOk s t T) (hinv : Inv s) {id : JobId} {p : QueueName × String}
    (hcommitted : s.jobs.get id ≠ none) (hkey : indexKeyAt (T.view s) id = some p) :
    indexKeyAt s.jobs id = some p := by
  obtain ⟨entry, hget⟩ := Option.ne_none_iff_exists'.mp hcommitted
  obtain ⟨after, hafter, hp⟩ := Option.bind_eq_some_iff.mp hkey
  obtain ⟨before, hbefore, hsame⟩ := Evolves.constant JobRow.indexKey
    (fun _ _ _ hacts => hacts.indexKey_eq) (hT.consistent.evolves id)
    (fun _ hop => hT.not_inserted (hinv.logged hget) hop) hafter
  rw [indexKeyAt_of_get hbefore, ← hsame]
  exact hp

/-- After a step a transaction sees no new index entry, or the one that it holds for the job it has inserted. -/
theorem KeyMove.view (h : KeyMove s t T effect) (hkeys : KeysOk s) (hT : s.txns t = some T)
    (hok : EffectOk s t T effect) {id : JobId} {p : QueueName × String}
    (hkey : indexKeyAt ((T.after effect).view (s.perform t T effect)) id = some p) :
    indexKeyAt (T.view s) id = some p ∨ id = s.nextJob ∧ effect.task.reserves = none ∧
      s.keyLocks p = some t ∧ ∀ id', indexKeyAt (T.view s) id' ≠ some p := by
  obtain ⟨after, hafter, hp⟩ := Option.bind_eq_some_iff.mp hkey
  cases h with
  | quiet _ hchanges =>
    refine .inl ?_
    have hinsert (op : LogEntry) (hop : op ∈ (effect.changes.map Change.event).filter
        fun op => jobDynamics.target op = id) (id' : JobId) (job : NewJob) : op.event ≠ .inserted id' job := by
      intro hevent
      obtain ⟨c, hc, rfl⟩ := List.mem_map.mp (List.mem_filter.mp hop).1
      have hupdate := hchanges c hc
      rw [hevent] at hupdate
      cases hupdate
    rw [view_perform] at hafter
    obtain ⟨before, hbefore, hsame⟩ := Evolves.constant JobRow.indexKey
      (fun _ _ _ hacts => hacts.indexKey_eq) (hok.consistent.evolves id) hinsert hafter
    rw [indexKeyAt_of_get hbefore, ← hsame]
    exact hp
  | reserve _ hchanges | find _ hchanges =>
    rw [view_perform_of_nil hchanges] at hafter
    exact .inl ((indexKeyAt_of_get hafter).trans hp)
  | @insert job _ hreserved htask hchanges =>
    rw [hok.get_view hchanges] at hafter
    split_ifs at hafter with hid
    · obtain rfl := Option.some.inj hafter
      exact .inr ⟨hid.symm, by rw [htask]; rfl, hkeys.reserved t T hT job p hreserved hp⟩
    · exact .inl ((indexKeyAt_of_get hafter).trans hp)
  | delete _ _ _ hchanges =>
    rw [hok.get_view hchanges] at hafter
    split_ifs at hafter
    exact .inl ((indexKeyAt_of_get hafter).trans hp)

/-- A step takes the index entry that another transaction holds only to delete a committed job, which the other
one has not locked. -/
theorem KeyMove.lock (h : KeyMove s t T effect) (hkeys : KeysOk s) (hinv : Inv s) (hT : s.txns t = some T)
    {p : QueueName × String} (hlock : effect.keyLock = some p) {t' : TxnId} (hne : t' ≠ t)
    (hheld : s.keyLocks p = some t') : ∃ id, indexKeyAt s.jobs id = some p ∧ s.jobLocks id ≠ some t' := by
  cases h with
  | quiet hquiet => cases hquiet.symm.trans hlock
  | find hfind => cases hfind.symm.trans hlock
  | insert hinsert => cases hinsert.symm.trans hlock
  | reserve hreserve _ _ hfree =>
    rcases (hfree p (hreserve.symm.trans hlock)).1 with hnolock | hmine
    · cases hnolock.symm.trans hheld
    · exact absurd (Option.some.inj (hheld.symm.trans hmine)) hne
  | @delete id args entry hget hdelete hjob hchanges =>
    have hentry : indexKeyAt (T.view s) id = some p :=
      (indexKeyAt_of_get hget).trans (hdelete.symm.trans hlock)
    have hcommitted : s.jobs.get id ≠ none := fun hnone =>
      hne (Option.some.inj (hheld.symm.trans (hkeys.inserted t T hT id p hentry hnone)))
    refine ⟨id, (hinv.txn t T hT).indexKeyAt_view hinv hcommitted hentry, ?_⟩
    rcases hjob with hfree | hmine
    · simp [hfree]
    · simp [hmine, hne.symm]

/-- An index entry that another transaction holds stays with it, unless the other one would see a committed job
with this entry. -/
theorem KeyMove.held (h : KeyMove s t T effect) (hkeys : KeysOk s) (hinv : Inv s) (hT : s.txns t = some T)
    {p : QueueName × String} {t' : TxnId} (hne : t' ≠ t) (hheld : s.keyLocks p = some t') {T' : Txn}
    (hT' : s.txns t' = some T')
    (hunseen : ∀ id, indexKeyAt s.jobs id = some p → indexKeyAt (T'.view s) id ≠ some p) :
    (s.perform t T effect).keyLocks p = some t' := by
  change takeLock s.keyLocks t effect.keyLock p = some t'
  cases hlock : effect.keyLock with
  | none => exact hheld
  | some p' =>
    by_cases hp : p = p'
    · subst hp
      obtain ⟨id, hkey, hunlocked⟩ := h.lock hkeys hinv hT hlock hne hheld
      refine absurd ?_ (hunseen id hkey)
      rw [indexKeyAt, (hinv.txn t' T' hT').view_of_unlocked hunlocked]
      exact hkey
    · simpa [takeLock, hp] using hheld

/-- A job that is being inserted has its index entry. -/
theorem KeyMove.reserved (h : KeyMove s t T effect) (hkeys : KeysOk s) (hT : s.txns t = some T) {job : NewJob}
    {p : QueueName × String} (hreserves : effect.task.reserves = some job) (hp : job.indexKey = some p) :
    (s.perform t T effect).keyLocks p = some t ∧ ∀ id, indexKeyAt (T.view s) id ≠ some p := by
  cases h with
  | quiet hlock _ _ hkeeps =>
    obtain ⟨hheld, hfresh⟩ := hkeys.reserved t T hT job p (hkeeps job hreserves) hp
    exact ⟨takeLock_of_held _ hheld, hfresh⟩
  | @reserve job' hlock _ htask hfree =>
    obtain rfl : job' = job := by simpa [htask, Task.reserves] using hreserves
    refine ⟨?_, (hfree p hp).2⟩
    change takeLock s.keyLocks t effect.keyLock p = some t
    rw [hlock, hp]
    exact takeLock_self _ _ _
  | find _ _ htask => simp [htask, Task.reserves] at hreserves
  | insert _ _ htask => simp [htask, Task.reserves] at hreserves
  | delete _ _ _ _ _ hnone => cases hnone.symm.trans hreserves

/-- A step keeps the index unique. -/
theorem KeysOk.perform (h : KeysOk s) (hinv : Inv s) (hT : s.txns t = some T) (he : Steps s t T effect) :
    KeysOk (s.perform t T effect) := by
  have hmove := he.keyMove
  have hok := he.ok hinv (hinv.txn t T hT)
  have hother {t' : TxnId} {T' : Txn} (hne : t' ≠ t) (hT' : (s.perform t T effect).txns t' = some T') :
      s.txns t' = some T' := by
    simpa [State.perform, hne] using hT'
  refine ⟨h.committed, fun t' T' hT' => ?_, fun t' T' hT' id p hkey hnone => ?_,
    fun t' T' hT' job p hreserves hp => ?_⟩
  · by_cases hne : t' = t
    · subst hne
      obtain rfl : T.after effect = T' := by simpa [State.perform] using hT'
      intro id id' p hid hid'
      rcases hmove.view h hT hok hid with hold | ⟨rfl, -, -, hfresh⟩
      · rcases hmove.view h hT hok hid' with hold' | ⟨rfl, -, -, hfresh⟩
        · exact h.views t' T hT id id' p hold hold'
        · exact absurd hold (hfresh id)
      · rcases hmove.view h hT hok hid' with hold' | ⟨rfl, -, -, -⟩
        · exact absurd hold' (hfresh id')
        · rfl
    · exact h.views t' T' (hother hne hT')
  · by_cases hne : t' = t
    · subst hne
      obtain rfl : T.after effect = T' := by simpa [State.perform] using hT'
      rcases hmove.view h hT hok hkey with hold | ⟨-, -, hheld, -⟩
      · exact takeLock_of_held _ (h.inserted t' T hT id p hold hnone)
      · exact takeLock_of_held _ hheld
    · -- A committed job with the entry would be a second one for the other transaction.
      have hT'' := hother hne hT'
      refine hmove.held h hinv hT hne (h.inserted t' T' hT'' id p hkey hnone) hT'' fun id' hid' hseen => ?_
      obtain rfl := h.views t' T' hT'' id id' p hkey hseen
      rw [indexKeyAt, show s.jobs.get id = none from hnone] at hid'
      cases hid'
  · by_cases hne : t' = t
    · subst hne
      obtain rfl : T.after effect = T' := by simpa [State.perform] using hT'
      obtain ⟨hheld, hfresh⟩ := hmove.reserved h hT hreserves hp
      refine ⟨hheld, fun id hkey => ?_⟩
      rcases hmove.view h hT hok hkey with hold | ⟨-, hnone, -, -⟩
      · exact hfresh id hold
      · cases hnone.symm.trans hreserves
    · have hT'' := hother hne hT'
      obtain ⟨hheld, hfresh⟩ := h.reserved t' T' hT'' job p hreserves hp
      exact ⟨hmove.held h hinv hT hne hheld hT'' fun id _ => hfresh id, hfresh⟩

/-- Where a row comes from that a transaction sees after the commit of another one: it has locked the
row itself, or the row is as the commit has left it. -/
theorem Inv.view_commit (hinv : Inv s) (hT : s.txns t = some T) {t' : TxnId} {T' : Txn} (hne : t' ≠ t)
    (hT' : s.txns t' = some T') (id : JobId) :
    s.jobLocks id = some t' ∧ (T'.view (s.commit t T)).get id = (T'.view s).get id ∨
      s.jobLocks id ≠ some t' ∧ (T'.view (s.commit t T)).get id = (T.view s).get id := by
  by_cases hlock : s.jobLocks id = some t'
  · refine .inl ⟨hlock, ?_⟩
    exact (hinv.txn t' T' hT').view_congr ((hinv.txn t T hT).frame_commit hne)
      ((hinv.txn t T hT).view_of_other hne hlock)
  · have hopen : (s.commit t T).txns t' = some T' := by
      simpa [State.commit, State.close, hne] using hT'
    refine .inr ⟨hlock, ((hinv.commit hT).txn t' T' hopen).view_of_unlocked fun hheld => hlock ?_⟩
    exact (releaseLocks_eq_some.mp hheld).1

/-- A job of an open transaction and one of another do not have the same key, unless they are the
same or one of them is not seen. -/
theorem KeysOk.eq_of_commit (h : KeysOk s) (hinv : Inv s) (hT : s.txns t = some T) {t' : TxnId} {T' : Txn}
    (hne : t' ≠ t) (hT' : s.txns t' = some T') {id id' : JobId} {p : QueueName × String}
    (hlock : s.jobLocks id = some t') (hid : indexKeyAt (T'.view s) id = some p)
    (hlock' : s.jobLocks id' ≠ some t') (hid' : indexKeyAt (T.view s) id' = some p) : id = id' := by
  by_cases hcommitted' : s.jobs.get id' = none
  · have hheld := h.inserted t T hT id' p hid' hcommitted'
    by_cases hcommitted : s.jobs.get id = none
    · exact absurd (Option.some.inj ((h.inserted t' T' hT' id p hid hcommitted).symm.trans hheld)) hne
    · apply h.views t T hT id id' p ?_ hid'
      rw [indexKeyAt, (hinv.txn t T hT).view_of_other hne hlock]
      exact (hinv.txn t' T' hT').indexKeyAt_view hinv hcommitted hid
  · apply h.views t' T' hT' id id' p hid
    rw [indexKeyAt, (hinv.txn t' T' hT').view_of_unlocked hlock']
    exact (hinv.txn t T hT).indexKeyAt_view hinv hcommitted' hid'

/-- A commit keeps the index unique. -/
theorem KeysOk.commit (h : KeysOk s) (hinv : Inv s) (hT : s.txns t = some T) : KeysOk (s.commit t T) := by
  refine ⟨h.views t T hT, fun t' T' hopen => ?_, fun t' T' hopen id p hkey hnone => ?_,
    fun t' T' hopen job p hreserves hp => ?_⟩
  · obtain ⟨hne, hT'⟩ := txns_close (t := t) hopen
    intro id id' p hid hid'
    rcases hinv.view_commit hT hne hT' id with ⟨hlock, hview⟩ | ⟨hlock, hview⟩ <;>
      rcases hinv.view_commit hT hne hT' id' with ⟨hlock', hview'⟩ | ⟨hlock', hview'⟩ <;>
      rw [indexKeyAt, hview] at hid <;> rw [indexKeyAt, hview'] at hid'
    · exact h.views t' T' hT' id id' p hid hid'
    · exact h.eq_of_commit hinv hT hne hT' hlock hid hlock' hid'
    · exact (h.eq_of_commit hinv hT hne hT' hlock' hid' hlock hid).symm
    · exact h.views t T hT id id' p hid hid'
  · obtain ⟨hne, hT'⟩ := txns_close (t := t) hopen
    change (T.view s).get id = none at hnone
    rcases hinv.view_commit hT hne hT' id with ⟨hlock, hview⟩ | ⟨-, hview⟩
    · rw [indexKeyAt, hview] at hkey
      rw [(hinv.txn t T hT).view_of_other hne hlock] at hnone
      exact releaseLocks_eq_some.mpr ⟨h.inserted t' T' hT' id p hkey hnone, hne⟩
    · rw [indexKeyAt, hview, hnone] at hkey
      cases hkey
  · obtain ⟨hne, hT'⟩ := txns_close (t := t) hopen
    obtain ⟨hheld, hfresh⟩ := h.reserved t' T' hT' job p hreserves hp
    refine ⟨releaseLocks_eq_some.mpr ⟨hheld, hne⟩, fun id hkey => ?_⟩
    rcases hinv.view_commit hT hne hT' id with ⟨-, hview⟩ | ⟨hlock, hview⟩ <;> rw [indexKeyAt, hview] at hkey
    · exact hfresh id hkey
    · by_cases hcommitted : s.jobs.get id = none
      · exact hne (Option.some.inj (hheld.symm.trans (h.inserted t T hT id p hkey hcommitted)))
      · refine hfresh id ?_
        rw [indexKeyAt, (hinv.txn t' T' hT').view_of_unlocked hlock]
        exact (hinv.txn t T hT).indexKeyAt_view hinv hcommitted hkey

/-- A transaction begins before it takes any index entry. -/
theorem Request.reserves_eq_none {request : Request} {task : Task} (h : request.task s = some task) :
    task.reserves = none := by
  have hbegin := Request.atBegin h
  cases task with
  | insert job pc =>
    obtain rfl : pc = .begin := hbegin
    rfl
  | _ => rfl

/-- Every action keeps the index unique. -/
theorem KeysOk.step {a : Action} (h : KeysOk s) (hinv : Inv s) (hs : step s a = some s') : KeysOk s' := by
  rcases step_cases hs with ⟨elapsed, -, rfl⟩ | ⟨request, task, -, hr, rfl⟩ |
    ⟨t, T, effect, hT, he, rfl⟩ | ⟨t, T, -, hT, -, rfl⟩ | ⟨t, T, -, -, rfl⟩
  · exact ⟨h.committed, h.views, h.inserted, h.reserved⟩
  · have hcases {t : TxnId} {T : Txn} (hT : (s.open task).txns t = some T) :
        T.task.reserves = none ∧ T.view s = s.jobs ∨ s.txns t = some T := by
      by_cases hne : t = s.nextTxn
      · obtain rfl : (⟨s.clock, task, [], []⟩ : Txn) = T := by simpa [State.open, hne] using hT
        exact .inl ⟨Request.reserves_eq_none hr, rfl⟩
      · exact .inr (by simpa [State.open, hne] using hT)
    refine ⟨h.committed, fun t T hT => ?_, fun t T hT id p hkey hnone => ?_, fun t T hT job p hreserves hp => ?_⟩
    · rcases hcases hT with ⟨-, hview⟩ | hold
      · change UniqueKeys (T.view s)
        rw [hview]
        exact h.committed
      · exact h.views t T hold
    · change indexKeyAt (T.view s) id = some p at hkey
      rcases hcases hT with ⟨-, hview⟩ | hold
      · rw [hview, indexKeyAt, show s.jobs.get id = none from hnone] at hkey
        cases hkey
      · exact h.inserted t T hold id p hkey hnone
    · rcases hcases hT with ⟨hnone, -⟩ | hold
      · cases hnone.symm.trans hreserves
      · exact h.reserved t T hold job p hreserves hp
  · exact h.perform hinv hT (StepsBy.steps he)
  · exact h.commit hinv hT
  · refine ⟨h.committed, fun t' T' hT' => ?_, fun t' T' hT' id p hkey hnone => ?_,
      fun t' T' hT' job p hreserves hp => ?_⟩
    · exact h.views t' T' (txns_close hT').2
    · obtain ⟨hne, hT'⟩ := txns_close hT'
      exact releaseLocks_eq_some.mpr ⟨h.inserted t' T' hT' id p hkey hnone, hne⟩
    · obtain ⟨hne, hT'⟩ := txns_close hT'
      obtain ⟨hheld, hfresh⟩ := h.reserved t' T' hT' job p hreserves hp
      exact ⟨releaseLocks_eq_some.mpr ⟨hheld, hne⟩, hfresh⟩

/-- In every reachable state the index is unique. -/
theorem Reachable.keysOk (h : Reachable s) : KeysOk s := by
  obtain ⟨clock, hrun⟩ := h
  suffices hinv : Inv s ∧ KeysOk s from hinv.2
  refine ReachesUnder.invariant (I := fun s => Inv s ∧ KeysOk s) hrun
    ⟨inv_init clock, ?_⟩ ?_
  · refine ⟨fun id id' p hid => ?_, fun t T hT => ?_, fun t T hT => ?_, fun t T hT => ?_⟩
    · cases hid
    · cases hT
    · cases hT
    · cases hT
  · rintro s a s' ⟨hinv, hkeys⟩ - hs
    exact ⟨hinv.step hs, hkeys.step hinv hs⟩

end PgRelay
