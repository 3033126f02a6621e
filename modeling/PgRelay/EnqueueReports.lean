import PgRelay.Purge

/-!
# What enqueues report

Every call of `insert_job` returns the row of a job and says whether it has created it. The reports of
a transaction count once it has been committed. Each created job has one report that says so, every
other report of its key has found the same job, and none of them has changed it.
-/

namespace PgRelay

open RowStore

variable {s s' : State} {t : TxnId} {T : Txn} {effect : Effect}

/-! ## The reports and the insertions -/

/-- The reports of the open transactions, and those of the committed ones. -/
structure Reports where
  pending : TxnId → List Report
  committed : List Report

/-- Before the first call. -/
def Reports.init : Reports := ⟨fun _ => [], []⟩

/-- What a transaction has just returned. -/
def State.reported (s : State) (t : TxnId) : List Report := (s.txns t).elim [] fun T => T.task.report

/-- An observer collects the reports and keeps those of the transactions that commit. -/
def noteReports (reports : Reports) (_ : State) (a : Action) (s' : State) : Reports :=
  match a with
  | .advance t | .scan t | .enqueueMore t _ =>
    { reports with pending := Function.update reports.pending t (reports.pending t ++ s'.reported t) }
  | .commit t => ⟨Function.update reports.pending t [], reports.committed ++ reports.pending t⟩
  | .rollback t => { reports with pending := Function.update reports.pending t [] }
  | .tick _ | .begin _ => reports

/-- The jobs that a log has inserted. -/
def insertions (log : List LogEntry) : List (JobId × NewJob) :=
  log.filterMap fun op =>
    match op.event with
    | .inserted id job => some (id, job)
    | _ => none

/-- The jobs that are reported to have been created. -/
def creations (reports : List Report) : List (JobId × NewJob) :=
  (reports.filter Report.created).map fun r => (r.id, r.job)

/-- The insertions of a log are those of its parts. -/
@[simp] theorem insertions_append (log log' : List LogEntry) :
    insertions (log ++ log') = insertions log ++ insertions log' := List.filterMap_append

/-- The creations of a list of reports are those of its parts. -/
@[simp] theorem creations_append (reports reports' : List Report) :
    creations (reports ++ reports') = creations reports ++ creations reports' := by
  simp [creations]

/-- The insertions of a log are those of its operations. -/
theorem mem_insertions {log : List LogEntry} {id : JobId} {job : NewJob} :
    (id, job) ∈ insertions log ↔ ∃ op ∈ log, op.event = .inserted id job := by
  simp only [insertions, List.mem_filterMap]
  apply exists_congr
  intro op
  apply and_congr_right
  intro _
  cases op.event <;> simp

/-- Updates insert nothing. -/
theorem insertions_eq_nil {log : List LogEntry} (h : ∀ op ∈ log, op.event.isUpdate = true) :
    insertions log = [] := by
  apply List.eq_nil_iff_forall_not_mem.mpr
  rintro ⟨id, job⟩ hmem
  obtain ⟨op, hop, hevent⟩ := mem_insertions.mp hmem
  have hupdate := h op hop
  rw [hevent] at hupdate
  cases hupdate

/-- An id is inserted once. -/
theorem LogOk.nodup_insertions {log : List LogEntry} (h : LogOk log) :
    ((insertions log).map Prod.fst).Nodup := by
  induction log using List.reverseRecOn with
  | nil => exact List.nodup_nil
  | append_singleton log op ih =>
    rw [insertions_append, List.map_append, List.nodup_append]
    refine ⟨ih h.of_append, ?_, ?_⟩
    · cases hevent : op.event <;> simp [insertions, hevent]
    · intro id hid id' hid' heq
      obtain ⟨⟨_, job⟩, hmem, rfl⟩ := List.mem_map.mp hid
      obtain ⟨⟨_, job'⟩, hmem', rfl⟩ := List.mem_map.mp hid'
      obtain ⟨c, hc, hevent⟩ := mem_insertions.mp hmem
      obtain ⟨_, hlast, hevent'⟩ := mem_insertions.mp hmem'
      obtain rfl := List.mem_singleton.mp hlast
      have hfresh := (h log _ [] rfl).fresh _ _ hevent' c hc
      rw [hevent] at hfresh
      exact hfresh heq

/-- A report is borne out by a log: the reported job has been inserted with the key that was asked for,
and by this very call if it says so. A call that has created nothing had a key. -/
structure Report.BorneOut (log : List LogEntry) (r : Report) : Prop where
  inserted : ∃ job, (r.id, job) ∈ insertions log ∧ job.indexKey = r.job.indexKey
  created : r.created = true → (r.id, r.job) ∈ insertions log
  found : r.created = false → r.job.indexKey ≠ none

/-- A longer log bears out what a shorter one does. -/
theorem Report.BorneOut.mono {log log' : List LogEntry} {r : Report} (h : r.BorneOut log) (hsub : log ⊆ log') :
    r.BorneOut log' := by
  have hmono {id : JobId} {job : NewJob} (hmem : (id, job) ∈ insertions log) : (id, job) ∈ insertions log' := by
    obtain ⟨op, hop, hevent⟩ := mem_insertions.mp hmem
    exact mem_insertions.mpr ⟨op, hsub hop, hevent⟩
  obtain ⟨job, hmem, hkey⟩ := h.inserted
  exact ⟨⟨job, hmono hmem, hkey⟩, fun hcreated => hmono (h.created hcreated), h.found⟩

/-- The reports account for the insertions. -/
structure ReportsOk (s : State) (reports : Reports) : Prop where
  closed : ∀ t, s.txns t = none → reports.pending t = []
  log : insertions s.log = creations reports.committed
  txn : ∀ t T, s.txns t = some T → insertions (T.changes.map Change.event) = creations (reports.pending t)
  committed : ∀ r ∈ reports.committed, r.BorneOut s.log
  pending : ∀ t T, s.txns t = some T → ∀ r ∈ reports.pending t, r.BorneOut (s.log ++ T.changes.map Change.event)

/-- A row that is there has been inserted, with all that no update changes. -/
theorem JobHistory.exists_inserted {α : Type} (column : JobRow → α) (requested : NewJob → α)
    (hcolumn : ∀ op before after, JobActs op (some before) (some after) → column after.row = column before.row)
    (hinsert : ∀ id now job, column (insertJob id now job) = requested job) {id : JobId} {log : List LogEntry}
    {entry : JobEntry} (h : JobHistory id log (some entry)) :
    ∃ job, (id, job) ∈ insertions log ∧ requested job = column entry.row := by
  have hid {op : LogEntry} (hop : op ∈ log) := h.jobId_of_mem hop
  suffices hjob : ∃ op ∈ log, ∃ id' job, op.event = .inserted id' job ∧ requested job = column entry.row by
    obtain ⟨op, hop, id', job, hevent, hsame⟩ := hjob
    have hop' := hid hop
    rw [hevent] at hop'
    obtain rfl : id' = id := hop'
    exact ⟨job, mem_insertions.mpr ⟨op, hop, hevent⟩, hsame⟩
  refine h.invariant (I := fun log entry => ∃ op ∈ log, ∃ id' job, op.event = .inserted id' job ∧
    requested job = column entry.row) (fun op entry hacts => ?_) ?_
  · cases hacts with
    | inserted hmax => exact ⟨_, List.mem_singleton_self _, _, _, rfl, (hinsert _ _ _).symm⟩
  · rintro log op before after - - hacts ⟨op', hop', id', job, hevent, hsame⟩
    exact ⟨op', List.mem_append_left _ hop', id', job, hevent, hsame.trans (hcolumn op before after hacts).symm⟩

/-- A job that a transaction sees has been inserted with the key it has. -/
theorem Reachable.inserted_of_view (h : Reachable s) (hT : s.txns t = some T) {id : JobId} {entry : JobEntry}
    (hget : (T.view s).get id = some entry) :
    ∃ job, (id, job) ∈ insertions (s.log ++ T.changes.map Change.event) ∧ job.indexKey = entry.row.indexKey := by
  have hhistory := h.jobHistory_view hT id
  rw [hget] at hhistory
  obtain ⟨job, hmem, hkey⟩ := hhistory.exists_inserted JobRow.indexKey NewJob.indexKey
    (fun _ _ _ hacts => hacts.indexKey_eq) (fun _ _ _ => rfl)
  obtain ⟨op, hop, hevent⟩ := mem_insertions.mp hmem
  exact ⟨job, mem_insertions.mpr ⟨op, (List.mem_filter.mp hop).1, hevent⟩, hkey⟩

/-- What a step reports is what it has inserted or found. -/
theorem KeyMove.reported (h : KeyMove s t T effect) (hreach : Reachable s) (hT : s.txns t = some T) :
    insertions (effect.changes.map Change.event) = creations effect.task.report ∧
      ∀ r ∈ effect.task.report, r.BorneOut (s.log ++ (T.after effect).changes.map Change.event) := by
  cases h with
  | quiet _ hchanges hreport =>
    rw [hreport]
    refine ⟨insertions_eq_nil fun op hop => ?_, by simp⟩
    obtain ⟨c, hc, rfl⟩ := List.mem_map.mp hop
    exact hchanges c hc
  | find _ hchanges htask hkey hget hfound =>
    rw [htask, hchanges]
    refine ⟨rfl, fun r hr => ?_⟩
    obtain rfl := List.mem_singleton.mp hr
    obtain ⟨job', hmem, hkey'⟩ := hreach.inserted_of_view hT hget
    refine ⟨⟨job', ?_, hkey'.trans (hfound.trans hkey.symm)⟩, fun hcreated => ?_, fun _ => ?_⟩
    · simpa [Txn.after, hchanges] using hmem
    · cases hcreated
    · simp [hkey]
  | reserve _ hchanges htask =>
    rw [htask, hchanges]
    exact ⟨rfl, by simp [Task.report]⟩
  | @insert job _ _ htask hchanges =>
    rw [htask, hchanges]
    refine ⟨rfl, fun r hr => ?_⟩
    obtain rfl := List.mem_singleton.mp hr
    have hmem : (s.nextJob, job) ∈ insertions (s.log ++ (T.after effect).changes.map Change.event) := by
      simp [Txn.after, hchanges, insertions]
    refine ⟨⟨job, hmem, rfl⟩, fun _ => hmem, fun hcreated => ?_⟩
    cases hcreated
  | delete _ _ _ hchanges hreport =>
    rw [hreport, hchanges]
    exact ⟨rfl, by simp⟩

/-- A transaction that begins has made no reports. -/
theorem ReportsOk.open {reports : Reports} (h : ReportsOk s reports) (hinv : Inv s) (task : Task) :
    ReportsOk (s.open task) reports := by
  have hnew : reports.pending s.nextTxn = [] := h.closed _ (hinv.unborn _ le_rfl)
  have hcases {t : TxnId} {T : Txn} (hT : (s.open task).txns t = some T) :
      T.changes = [] ∧ reports.pending t = [] ∨ s.txns t = some T := by
    by_cases hne : t = s.nextTxn
    · obtain rfl : (⟨s.clock, task, [], []⟩ : Txn) = T := by simpa [State.open, hne] using hT
      exact .inl ⟨rfl, hne ▸ hnew⟩
    · exact .inr (by simpa [State.open, hne] using hT)
  refine ⟨fun t ht => ?_, h.log, fun t T hT => ?_, h.committed, fun t T hT r hr => ?_⟩
  · by_cases hne : t = s.nextTxn
    · simp [State.open, hne] at ht
    · exact h.closed t (by simpa [State.open, hne] using ht)
  · rcases hcases hT with ⟨hchanges, hpending⟩ | hold
    · rw [hchanges, hpending]
      rfl
    · exact h.txn t T hold
  · rcases hcases hT with ⟨-, hpending⟩ | hold
    · rw [hpending] at hr
      cases hr
    · exact h.pending t T hold r hr

/-- A step reports what its task has come to. -/
theorem noteReports_perform {reports : Reports} {a : Action} (he : StepsBy s t T a effect) :
    noteReports reports s a (s.perform t T effect) = { reports with
      pending := Function.update reports.pending t (reports.pending t ++ effect.task.report) } := by
  have hreported : (s.perform t T effect).reported t = effect.task.report := by
    simp [State.reported, State.perform, Txn.after]
  rw [← hreported]
  rcases he with ⟨rfl, -⟩ | ⟨rfl, -⟩ | ⟨job, rfl, -⟩ <;> rfl

/-- The reports of a step are those of its insertions. -/
theorem ReportsOk.perform {reports : Reports} {a : Action} (h : ReportsOk s reports) (hreach : Reachable s)
    (hT : s.txns t = some T) (he : StepsBy s t T a effect) :
    ReportsOk (s.perform t T effect) (noteReports reports s a (s.perform t T effect)) := by
  obtain ⟨hinsertions, hborne⟩ := (StepsBy.steps he).keyMove.reported hreach hT
  have hother {t' : TxnId} {T' : Txn} (hne : t' ≠ t) (hT' : (s.perform t T effect).txns t' = some T') :
      s.txns t' = some T' := by
    simpa [State.perform, hne] using hT'
  rw [noteReports_perform he]
  refine ⟨fun t' ht' => ?_, h.log, fun t' T' hT' => ?_, h.committed, fun t' T' hT' r hr => ?_⟩
  · have hne : t' ≠ t := by
      rintro rfl
      simp [State.perform] at ht'
    simpa [hne] using h.closed t' (by simpa [State.perform, hne] using ht')
  · by_cases hne : t' = t
    · subst hne
      obtain rfl : T.after effect = T' := by simpa [State.perform] using hT'
      simp [Txn.after, h.txn t' T hT, hinsertions]
    · simpa [hne] using h.txn t' T' (hother hne hT')
  · by_cases hne : t' = t
    · subst hne
      obtain rfl : T.after effect = T' := by simpa [State.perform] using hT'
      have hr : r ∈ reports.pending t' ++ effect.task.report := by simpa using hr
      rcases List.mem_append.mp hr with hold | hnew
      · refine (h.pending t' T hT r hold).mono ?_
        simp [State.perform, Txn.after, ← List.append_assoc]
      · exact hborne r hnew
    · exact h.pending t' T' (hother hne hT') r (by simpa [hne] using hr)

/-- A commit makes the reports of its transaction final. -/
theorem ReportsOk.commit {reports : Reports} (h : ReportsOk s reports) (hT : s.txns t = some T) :
    ReportsOk (s.commit t T) (noteReports reports s (.commit t) (s.commit t T)) := by
  refine ⟨fun t' ht' => ?_, ?_, fun t' T' hT' => ?_, fun r hr => ?_, fun t' T' hT' r hr => ?_⟩
  · by_cases hne : t' = t
    · simp [noteReports, hne]
    · simpa [noteReports, hne] using h.closed t' (by simpa [State.commit, State.close, hne] using ht')
  · simp [noteReports, State.commit, h.log, h.txn t T hT]
  · obtain ⟨hne, hopen⟩ := txns_close (t := t) hT'
    simpa [noteReports, hne] using h.txn t' T' hopen
  · rcases List.mem_append.mp hr with hold | hnew
    · exact (h.committed r hold).mono (List.subset_append_left _ _)
    · exact h.pending t T hT r hnew
  · obtain ⟨hne, hopen⟩ := txns_close (t := t) hT'
    refine (h.pending t' T' hopen r (by simpa [noteReports, hne] using hr)).mono ?_
    intro op hop
    simp only [State.commit, List.mem_append] at hop ⊢
    tauto

/-- A rollback takes the reports of its transaction back. -/
theorem ReportsOk.close {reports : Reports} (h : ReportsOk s reports) (t : TxnId) :
    ReportsOk (s.close t) (noteReports reports s (.rollback t) (s.close t)) := by
  refine ⟨fun t' ht' => ?_, h.log, fun t' T' hT' => ?_, h.committed, fun t' T' hT' r hr => ?_⟩
  · by_cases hne : t' = t
    · simp [noteReports, hne]
    · simpa [noteReports, hne] using h.closed t' (by simpa [State.close, hne] using ht')
  · obtain ⟨hne, hopen⟩ := txns_close hT'
    simpa [noteReports, hne] using h.txn t' T' hopen
  · obtain ⟨hne, hopen⟩ := txns_close hT'
    exact h.pending t' T' hopen r (by simpa [noteReports, hne] using hr)

/-- Every action keeps the account of the reports. -/
theorem ReportsOk.step {reports : Reports} {a : Action} (h : ReportsOk s reports) (hreach : Reachable s)
    (hs : step s a = some s') : ReportsOk s' (noteReports reports s a s') := by
  rcases step_cases hs with ⟨elapsed, rfl, rfl⟩ | ⟨request, task, rfl, -, rfl⟩ |
    ⟨t, T, effect, hT, he, rfl⟩ | ⟨t, T, rfl, hT, -, rfl⟩ | ⟨t, T, rfl, -, rfl⟩
  · exact ⟨h.closed, h.log, h.txn, h.committed, h.pending⟩
  · exact h.open hreach.inv task
  · exact h.perform hreach hT he
  · exact h.commit hT
  · exact h.close t

/-! ## Rows and their insertions -/

/-- The columns that the insertion of a job sets and no update writes. -/
structure JobContents where
  queueName : QueueName
  kind : JobKind
  name : String
  payload : Json
  headers : Json
  metadata : Json
  priority : Int
  maxAttempts : Int
  timeoutSeconds : Int
  dedupeKey : Option String
  traceId : Option String

/-- These columns of a row. -/
def JobRow.contents (j : JobRow) : JobContents :=
  ⟨j.queueName, j.kind, j.name, j.payload, j.headers, j.metadata, j.priority, j.maxAttempts, j.timeoutSeconds,
    j.dedupeKey, j.traceId⟩

/-- These columns of a job to be inserted. -/
def NewJob.contents (job : NewJob) : JobContents :=
  ⟨job.queueName, job.kind, job.name, job.payload, job.headers, job.metadata, job.priority, job.maxAttempts,
    job.timeoutSeconds, job.dedupeKey, job.traceId⟩

/-- No operation changes the contents of a job. -/
theorem JobActs.contents_eq {op : LogEntry} {before after : JobEntry}
    (h : JobActs op (some before) (some after)) : after.row.contents = before.row.contents := by
  cases h with
  | claimed _ hx => exact congrArg (fun x => x.job.contents) hx
  | _ => rfl

/-- A purge has deleted the job. -/
def State.purged (s : State) (id : JobId) : Bool :=
  s.log.any fun op =>
    match op.event with
    | .deleted id' _ => id' = id
    | _ => false

/-- An id is inserted with one job only. -/
theorem LogOk.insertion_unique {log : List LogEntry} (h : LogOk log) {id : JobId} {job job' : NewJob}
    (hmem : (id, job) ∈ insertions log) (hmem' : (id, job') ∈ insertions log) : job = job' := by
  have heq := List.inj_on_of_nodup_map h.nodup_insertions hmem hmem' rfl
  exact (Prod.mk.inj heq).2

/-- A committed job has been inserted with the contents it has. -/
theorem Reachable.inserted_of_get (h : Reachable s) {id : JobId} {entry : JobEntry}
    (hget : s.jobs.get id = some entry) : ∃ job, (id, job) ∈ insertions s.log ∧
      job.contents = entry.row.contents ∧ job.indexKey = entry.row.indexKey := by
  have hhistory := h.jobHistory id
  rw [hget] at hhistory
  obtain ⟨job, hmem, hsame⟩ := hhistory.exists_inserted
    (fun j => (j.contents, j.indexKey)) (fun job => (job.contents, job.indexKey))
    (fun _ _ _ hacts => Prod.ext hacts.contents_eq hacts.indexKey_eq) (fun _ _ _ => rfl)
  obtain ⟨op, hop, hevent⟩ := mem_insertions.mp hmem
  obtain ⟨hcontents, hkey⟩ := Prod.mk.inj hsame
  exact ⟨job, mem_insertions.mpr ⟨op, (List.mem_filter.mp hop).1, hevent⟩, hcontents, hkey⟩

/-- An inserted job that has not been purged is stored as it was inserted. -/
theorem Reachable.stored_of_insertion (h : Reachable s) {id : JobId} {job : NewJob}
    (hmem : (id, job) ∈ insertions s.log) (hpurged : s.purged id = false) :
    ∃ entry, s.jobs.get id = some entry ∧ entry.row.contents = job.contents ∧
      entry.row.indexKey = job.indexKey := by
  cases hget : s.jobs.get id with
  | none =>
    have hhistory := h.jobHistory id
    rw [hget] at hhistory
    have hlog : jobLog s.log id ≠ [] := by
      obtain ⟨op, hop, hevent⟩ := mem_insertions.mp hmem
      apply List.ne_nil_of_mem (a := op)
      exact List.mem_filter.mpr ⟨hop, by simp [hevent, JobEvent.jobId]⟩
    obtain ⟨op, hop, args, hevent⟩ := hhistory.exists_deleted rfl hlog
    have hdeleted : s.purged id = true :=
      List.any_eq_true.mpr ⟨op, (List.mem_filter.mp hop).1, by simp [hevent]⟩
    cases hpurged.symm.trans hdeleted
  | some entry =>
    obtain ⟨job', hmem', hcontents, hkey⟩ := h.inserted_of_get hget
    obtain rfl := h.inv.logOk.insertion_unique hmem hmem'
    exact ⟨entry, rfl, hcontents.symm, hkey.symm⟩

/-- Insertions leave a job that is there alone, and create one that is not as it was asked for. -/
theorem Evolves.of_insertions {events : List LogEntry} {start row : Option JobEntry}
    (h : jobDynamics.Evolves events start row) (hall : ∀ op ∈ events, ∃ id job, op.event = .inserted id job) :
    events = [] ∧ row = start ∨ start = none ∧ ∃ op id job, events = [op] ∧ op.event = .inserted id job ∧
      row = some ⟨insertJob id op.now job, []⟩ := by
  induction h with
  | nil row => exact .inl ⟨rfl, rfl⟩
  | @snoc events op start before after _ hacts ih =>
    obtain ⟨id, job, hevent⟩ := hall op (List.mem_append_right _ (List.mem_singleton_self _))
    obtain ⟨txn, now, event⟩ := op
    obtain rfl : event = .inserted id job := hevent
    cases hacts with
    | inserted hmax =>
      rcases ih fun op' hop' => hall op' (List.mem_append_left _ hop') with ⟨rfl, hnone⟩ | ⟨-, _, _, _, -, -, hrow⟩
      · exact .inr ⟨hnone.symm, _, id, job, rfl, rfl, rfl⟩
      · cases hrow

/-- A transaction that enqueues sees every committed job as it is, and those it has created as it
has asked for them. -/
theorem Reachable.view_of_insert (h : Reachable s) (hT : s.txns t = some T) {job : NewJob} {pc : InsertPc}
    (htask : T.task = .insert job pc) :
    (∀ id entry, s.jobs.get id = some entry → (T.view s).get id = some entry) ∧
      ∀ id job', (id, job') ∈ insertions (T.changes.map Change.event) →
        s.jobs.get id = none ∧ ∃ now, (T.view s).get id = some ⟨insertJob id now job', []⟩ := by
  have hok := h.inv.txn t T hT
  have hwrites := h.writes hT
  rw [htask] at hwrites
  have hall (id : JobId) (op : LogEntry)
      (hop : op ∈ (T.changes.map Change.event).filter fun op => jobDynamics.target op = id) :
      ∃ id job, op.event = .inserted id job := by
    obtain ⟨c, hc, rfl⟩ := List.mem_map.mp (List.mem_filter.mp hop).1
    exact hwrites _ (List.mem_map.mpr ⟨c, hc, rfl⟩)
  constructor
  · intro id entry hget
    rcases Evolves.of_insertions (hok.consistent.evolves id) (hall id) with ⟨-, hsame⟩ | ⟨hnone, -⟩
    · exact hsame.trans hget
    · cases hnone.symm.trans hget
  · intro id job' hmem
    obtain ⟨op, hop, hevent⟩ := mem_insertions.mp hmem
    have hop' : op ∈ (T.changes.map Change.event).filter fun op => jobDynamics.target op = id :=
      List.mem_filter.mpr ⟨hop, by simp [jobDynamics, hevent, JobEvent.jobId]⟩
    rcases Evolves.of_insertions (hok.consistent.evolves id) (hall id) with ⟨hnil, -⟩ |
      ⟨hnone, op', id', job'', hone, hevent', hrow⟩
    · rw [hnil] at hop'
      cases hop'
    · rw [hone] at hop'
      obtain rfl := List.mem_singleton.mp hop'
      obtain ⟨rfl, rfl⟩ := JobEvent.inserted.inj (hevent.symm.trans hevent')
      exact ⟨hnone, op.now, hrow⟩

/-! ## Idempotent enqueue -/

/-- What the committed enqueues have in common, as long as the jobs they returned are not purged. -/
structure IdempotentEnqueue (s : State) (reports : Reports) : Prop where
  unique : UniqueKeys s.jobs
  uniqueViews : ∀ t T, s.txns t = some T → UniqueKeys (T.view s)
  sameJob : ∀ r ∈ reports.committed, ∀ r' ∈ reports.committed, r.job.indexKey ≠ none →
    r'.job.indexKey = r.job.indexKey → s.purged r.id = false → s.purged r'.id = false → r'.id = r.id
  createdOnce : ∀ r ∈ reports.committed, r.job.indexKey ≠ none → s.purged r.id = false →
    (reports.committed.filter fun r' => r'.created && decide (r'.job.indexKey = r.job.indexKey) &&
      !s.purged r'.id).length = 1
  stored : ∀ r ∈ reports.committed, r.created = true → s.purged r.id = false → ∃ entry,
    s.jobs.get r.id = some entry ∧ entry.row.contents = r.job.contents ∧ entry.row.indexKey = r.job.indexKey
  unchanged : ∀ t T job pc, s.txns t = some T → T.task = .insert job pc →
    (∀ id entry, s.jobs.get id = some entry → (T.view s).get id = some entry) ∧
      ∀ r ∈ reports.pending t, r.created = true → ∃ now, (T.view s).get r.id = some ⟨insertJob r.id now r.job, []⟩
  nullKey : ∀ r ∈ reports.committed, r.job.idempotencyKey = none → r.created = true
  distinct : ((reports.committed.filter Report.created).map Report.id).Nodup
  separate : ∀ r ∈ reports.committed, ∀ r' ∈ reports.committed, r'.id = r.id → r'.job.indexKey = r.job.indexKey

/-- A creation is a report that says so. -/
theorem mem_creations {reports : List Report} {id : JobId} {job : NewJob} :
    (id, job) ∈ creations reports ↔ (⟨job, id, true⟩ : Report) ∈ reports := by
  simp only [creations, List.mem_map, List.mem_filter]
  constructor
  · rintro ⟨⟨job', id', created⟩, ⟨hmem, hcreated⟩, heq⟩
    obtain ⟨rfl, rfl⟩ := Prod.mk.inj heq
    obtain rfl : created = true := hcreated
    exact hmem
  · intro hmem
    exact ⟨_, ⟨hmem, rfl⟩, rfl⟩

/-- No job is reported to have been created twice. -/
theorem ReportsOk.nodup_created {reports : Reports} (h : ReportsOk s reports) (hreach : Reachable s) :
    ((reports.committed.filter Report.created).map Report.id).Nodup := by
  have hnodup := hreach.inv.logOk.nodup_insertions
  rw [h.log, creations, List.map_map] at hnodup
  exact hnodup

/-- The row of a committed report that has not been purged. -/
theorem ReportsOk.stored {reports : Reports} (h : ReportsOk s reports) (hreach : Reachable s) {r : Report}
    (hr : r ∈ reports.committed) (hpurged : s.purged r.id = false) :
    indexKeyAt s.jobs r.id = r.job.indexKey := by
  obtain ⟨job, hmem, hkey⟩ := (h.committed r hr).inserted
  obtain ⟨entry, hget, -, hindex⟩ := hreach.stored_of_insertion hmem hpurged
  exact (indexKeyAt_of_get hget).trans (hindex.trans hkey)

/-- Enqueues of one key return one job, as long as the jobs they returned are not purged. -/
theorem ReportsOk.sameJob {reports : Reports} (h : ReportsOk s reports) (hreach : Reachable s) {r r' : Report}
    (hr : r ∈ reports.committed) (hr' : r' ∈ reports.committed) (hkey : r.job.indexKey ≠ none)
    (hsame : r'.job.indexKey = r.job.indexKey) (hpurged : s.purged r.id = false)
    (hpurged' : s.purged r'.id = false) : r'.id = r.id := by
  obtain ⟨p, hp⟩ := Option.ne_none_iff_exists'.mp hkey
  apply hreach.keysOk.committed r'.id r.id p
  · rw [h.stored hreach hr' hpurged', hsame, hp]
  · rw [h.stored hreach hr hpurged, hp]

/-- Rows with distinct keys that all have the same key are one at most. -/
theorem length_le_one_of_nodup {α β : Type} {f : α → β} {l : List α} (hnodup : (l.map f).Nodup) {b : β}
    (hall : ∀ x ∈ l, f x = b) : l.length ≤ 1 := by
  have hrep : l.map f = List.replicate l.length b := by
    rw [List.eq_replicate_iff]
    exact ⟨List.length_map .., by simpa using hall⟩
  rw [hrep] at hnodup
  exact List.nodup_replicate.mp hnodup

/-- Of the enqueues of one key whose jobs are not purged exactly one has created its job. -/
theorem ReportsOk.createdOnce {reports : Reports} (h : ReportsOk s reports) (hreach : Reachable s) {r : Report}
    (hr : r ∈ reports.committed) (hkey : r.job.indexKey ≠ none) (hpurged : s.purged r.id = false) :
    (reports.committed.filter fun r' => r'.created && decide (r'.job.indexKey = r.job.indexKey) &&
      !s.purged r'.id).length = 1 := by
  apply le_antisymm
  · have hsub : (reports.committed.filter fun r' => r'.created && decide (r'.job.indexKey = r.job.indexKey) &&
        !s.purged r'.id).Sublist (reports.committed.filter Report.created) := by
      apply List.monotone_filter_right
      intro r' hr'
      simp only [Bool.and_eq_true] at hr'
      exact hr'.1.1
    refine length_le_one_of_nodup (b := r.id) ((hsub.map Report.id).nodup (h.nodup_created hreach)) ?_
    intro r' hr'
    obtain ⟨hmem, htest⟩ := List.mem_filter.mp hr'
    simp only [Bool.and_eq_true, decide_eq_true_eq, Bool.not_eq_true'] at htest
    exact h.sameJob hreach hr hmem hkey htest.1.2 hpurged htest.2
  · -- The job of any report has been created by a committed call.
    obtain ⟨job, hmem, hsame⟩ := (h.committed r hr).inserted
    rw [h.log, mem_creations] at hmem
    apply List.length_pos_of_mem (a := ⟨job, r.id, true⟩)
    exact List.mem_filter.mpr ⟨hmem, by simp [hsame, hpurged]⟩

/-- In every interleaving of enqueues with each other and with all other transactions, each of them
committing or rolling back, the committed enqueues of a key return one job, which exactly one of them
has created and none has changed since; all others create distinct jobs. -/
theorem idempotent_enqueue {clock : Timestamp} {reports : Reports}
    (h : Reaches (observed step noteReports) (State.init clock, Reports.init) (s, reports)) :
    IdempotentEnqueue s reports := by
  obtain ⟨hreach, hok⟩ : Reachable s ∧ ReportsOk s reports := by
    refine h.observed_invariant (fun _ _ => True) (I := fun s reports => Reachable s ∧ ReportsOk s reports)
      ⟨reachable_init clock, ?_⟩ ?_
    · constructor <;> simp [State.init, Reports.init, insertions, creations]
    · rintro s reports a s' ⟨hreach, hok⟩ - hs
      exact ⟨hreach.tail hs, hok.step hreach hs⟩
  refine ⟨hreach.keysOk.committed, hreach.keysOk.views, ?_, ?_, ?_, ?_, ?_, hok.nodup_created hreach, ?_⟩
  · intro r hr r' hr' hkey hsame hpurged hpurged'
    exact hok.sameJob hreach hr hr' hkey hsame hpurged hpurged'
  · intro r hr hkey hpurged
    exact hok.createdOnce hreach hr hkey hpurged
  · intro r hr hcreated hpurged
    exact hreach.stored_of_insertion ((hok.committed r hr).created hcreated) hpurged
  · intro t T job pc hT htask
    obtain ⟨hcommitted, hown⟩ := hreach.view_of_insert hT htask
    refine ⟨hcommitted, fun r hr hcreated => (hown r.id r.job ?_).2⟩
    rw [hok.txn t T hT]
    exact List.mem_map.mpr ⟨r, List.mem_filter.mpr ⟨hr, hcreated⟩, rfl⟩
  · intro r hr hnull
    by_contra hcreated
    exact (hok.committed r hr).found (Bool.eq_false_of_not_eq_true hcreated) (by simp [NewJob.indexKey, hnull])
  · intro r hr r' hr' hid
    obtain ⟨job, hmem, hkey⟩ := (hok.committed r hr).inserted
    obtain ⟨job', hmem', hkey'⟩ := (hok.committed r' hr').inserted
    rw [hid] at hmem'
    obtain rfl := hreach.inv.logOk.insertion_unique hmem hmem'
    exact hkey'.symm.trans hkey

/-- A handler job with an idempotency key. -/
def keyedJob (q key : String) : NewJob := { handlerJob q 2 with idempotencyKey := some key }

/-- Two overlapping enqueues of one key, of which the second waits for the first. -/
def overlappingEnqueues : List Action :=
  transaction 0 (.enqueue (handlerJob "mail" 2)) 5 ++
    [.begin (.enqueue (keyedJob "mail" "k")), .begin (.enqueue (keyedJob "mail" "k"))] ++
    List.replicate 2 (.advance 2) ++ List.replicate 5 (.advance 1) ++ .commit 1 :: List.replicate 2 (.advance 2) ++
    [.commit 2]

/-- A job without a key, and two overlapping enqueues of one key. -/
theorem idempotent_enqueue_overlappingEnqueues : ∃ s reports,
    run (observed step noteReports) (State.init 0, Reports.init) overlappingEnqueues = some (s, reports) ∧
      (reports.committed.map fun r => (r.id, r.created)) = [(0, true), (1, true), (1, false)] ∧
      IdempotentEnqueue s reports := by
  have hrun : (run (observed step noteReports) (State.init 0, Reports.init) overlappingEnqueues).map
      (fun sr => sr.2.committed.map fun r => (r.id, r.created)) =
        some [(0, true), (1, true), (1, false)] := by
    decide +kernel
  obtain ⟨⟨s, reports⟩, hs, hreports⟩ := Option.map_eq_some_iff.mp hrun
  exact ⟨s, reports, hs, hreports, idempotent_enqueue (reaches_of_run hs)⟩

end PgRelay
