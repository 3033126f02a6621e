import PgRelay.JobRows
import Mathlib.Data.List.DropRight

/-!
# The caller's transaction

A caller writes to its own tables and enqueues jobs in one session, and commits once at the end. The
statements of `insert_job` run in the caller's transaction. When one of them fails, the repository rolls
that transaction back before it raises its error, so a caller who catches the error goes on in a new
transaction, without what it has written before.

What the database answers to a statement is an input here, and so is the result of the validations of
`EnqueueService`, which do not use the session.
-/

namespace PgRelay

/-! ## Sessions -/

/-- What a call raises. -/
inductive Raised
  | sqlAlchemyError
  | repositoryError (message : String)
  | validationError (message : String)
  deriving DecidableEq

/-- What a statement has written: a row of the caller, a queue or a job. -/
inductive Written (D : Type)
  | domain (row : D)
  | queue (name : QueueName)
  | job (id : JobId)
  deriving DecidableEq

/-- A write, with the place in the caller's program of the operation that made it. -/
structure Write (D : Type) where
  place : ℕ
  written : Written D
  deriving DecidableEq

/-- A session: what its open transaction has written, and whether a failed statement has aborted it. -/
structure Session (D : Type) where
  writes : List (Write D)
  aborted : Bool

/-- Calls that use a session. -/
abbrev SessionM (D : Type) := ExceptT Raised (StateM (Session D))

/-- The answer to a statement; `none` is a failure. -/
abbrev Answer := Option

variable {D R α : Type}

/-- `session.execute`: a failing statement raises an error and aborts the transaction, in which all
statements fail from then on. -/
def execute (place : ℕ) (answer : Answer α) (writes : α → List (Written D)) : SessionM D α := do
  if (← get).aborted then throw .sqlAlchemyError
  match answer with
  | none =>
    modify fun session => { session with aborted := true }
    throw .sqlAlchemyError
  | some a =>
    modify fun session => { session with writes := session.writes ++ (writes a).map (Write.mk place) }
    return a

/-- `session.rollback()`: the next statement begins a new transaction. -/
def rollback : SessionM D Unit := set (⟨[], false⟩ : Session D)

/-- `except SQLAlchemyError as exc: await session.rollback(); raise RepositoryError(…) from exc`. -/
def rollsBackWith (message : String) (body : SessionM D α) : SessionM D α :=
  tryCatch body fun
    | .sqlAlchemyError => do
      rollback
      throw (.repositoryError message)
    | e => throw e

/-! ## Enqueues -/

/-- The answers to the statements of one call: whether the upsert has written a queue, the row of the
queue, the inserted row, and the row with the idempotency key. -/
structure Answers where
  upsert : Answer Bool
  queue : Answer (Option QueueRow)
  insert : Answer (Option JobRow)
  existing : Answer (Option JobRow)

variable (place : ℕ) (db : Answers)

/-- `get_queue`. -/
def getQueue : SessionM D (Option QueueRow) :=
  rollsBackWith "Queue lookup failed" (execute place db.queue fun _ => [])

/-- `upsert_queue`. -/
def upsertQueueCall (name : QueueName) : SessionM D QueueRow :=
  rollsBackWith "Queue upsert failed" do
    let _ ← execute place db.upsert fun written => if written then [.queue name] else []
    match ← getQueue place db with
    | none => throw (.repositoryError "Queue upsert did not return a row")
    | some row => return row

/-- `_get_by_idempotency_key`. -/
def getByIdempotencyKey : SessionM D (Option JobRow) := execute place db.existing fun _ => []

/-- `insert_job`. -/
def insertJobCall (job : NewJob) : SessionM D (JobRow × Bool) :=
  rollsBackWith "Job insert failed" do
    let _ ← upsertQueueCall place db job.queueName
    match ← execute place db.insert fun inserted => inserted.toList.map fun row => .job row.id with
    | some inserted => return (inserted, true)
    | none =>
      match job.idempotencyKey with
      | none => throw (.repositoryError "Insert without idempotency key returned no row")
      | some _ =>
        match ← getByIdempotencyKey place db with
        | none => throw (.repositoryError "Idempotent job conflict did not return an existing row")
        | some existing => return (existing, false)

/-- `EnqueueResult`. -/
structure EnqueueResult where
  jobId : JobId
  created : Bool
  queueName : QueueName
  status : JobStatus
  idempotencyKey : Option String

/-- `EnqueueService.enqueue`. -/
def enqueue (validate : R → Except String NewJob) (request : R) : SessionM D EnqueueResult := do
  match validate request with
  | .error message => throw (.validationError message)
  | .ok job =>
    let (row, created) ← insertJobCall place db job
    return ⟨row.id, created, row.queueName, row.status, row.idempotencyKey⟩

/-! ## Callers -/

/-- An operation of the caller, with what the database answers to it. -/
inductive CallerOp (D R : Type)
  | write (row : D) (answer : Answer Unit)
  | enqueue (request : R) (db : Answers)

/-- A caller at work: its session, what has been reported to it as written, how many operations it has
performed, and whether an error of its own has ended it. -/
structure Caller (D : Type) where
  session : Session D
  reported : List (Write D)
  place : ℕ
  raised : Bool

/-- Before the first operation. -/
def Caller.init : Caller D := ⟨⟨[], false⟩, [], 0, false⟩

/-- The caller performs an operation. It catches the errors of PgRelay and goes on; an error of its own
ends it. A job that was there already is not one of its jobs. -/
def Caller.perform (validate : R → Except String NewJob) (c : Caller D) (op : CallerOp D R) : Caller D :=
  if c.raised then c
  else
    match op with
    | .write row answer =>
      match (execute c.place answer fun _ => [.domain row] : SessionM D Unit).run.run c.session with
      | (.ok _, session) => ⟨session, c.reported ++ [⟨c.place, .domain row⟩], c.place + 1, false⟩
      | (.error _, session) => ⟨session, c.reported, c.place + 1, true⟩
    | .enqueue request db =>
      match (enqueue c.place db validate request : SessionM D EnqueueResult).run.run c.session with
      | (.ok result, session) =>
        ⟨session, if result.created then c.reported ++ [⟨c.place, .job result.jobId⟩] else c.reported,
          c.place + 1, false⟩
      | (.error .sqlAlchemyError, session) => ⟨session, c.reported, c.place + 1, true⟩
      | (.error _, session) => ⟨session, c.reported, c.place + 1, false⟩

/-- A caller performs its operations in order. -/
def runCaller (validate : R → Except String NewJob) (program : List (CallerOp D R)) : Caller D :=
  program.foldl (Caller.perform validate) Caller.init

/-- What the commit at the end of the program leaves in the database. -/
def Caller.committed (c : Caller D) (commit : Answer Unit) : List (Write D) :=
  if c.raised || c.session.aborted || commit.isNone then [] else c.session.writes

/-- All of what was reported is committed, or none of it. -/
def Atomic (reported committed : List (Write D)) : Prop :=
  (∀ w ∈ reported, w ∈ committed) ∨ ∀ w ∈ reported, w ∉ committed

/-! ## What an operation does -/

/-- The answers with which a call creates a job. -/
def Answers.creates (db : Answers) : Bool :=
  match db.upsert, db.queue, db.insert with
  | some _, some (some _), some (some _) => true
  | _, _, _ => false

/-- The answers with which a call for the job comes to a failing statement. -/
def Answers.rollsBack (job : NewJob) (db : Answers) : Bool :=
  match db.upsert, db.queue, db.insert, db.existing with
  | none, _, _, _ | some _, none, _, _ | some _, some (some _), none, _ => true
  | some _, some (some _), some none, none => job.idempotencyKey.isSome
  | _, _, _, _ => false

/-- The operation writes a row of the caller or creates a job. -/
def CallerOp.creates (validate : R → Except String NewJob) : CallerOp D R → Bool
  | .write _ answer => answer.isSome
  | .enqueue request db =>
    match validate request with
    | .error _ => false
    | .ok _ => db.creates

/-- The operation is an enqueue that comes to a failing statement. -/
def CallerOp.rollsBack (validate : R → Except String NewJob) : CallerOp D R → Bool
  | .write _ _ => false
  | .enqueue request db =>
    match validate request with
    | .error _ => false
    | .ok job => db.rollsBack job

/-- The operation is a failing write of the caller. -/
def CallerOp.raises : CallerOp D R → Bool
  | .write _ answer => answer.isNone
  | .enqueue _ _ => false

/-- What a call of `insert_job` returns or raises, and how it leaves the session. -/
inductive InsertRun (place : ℕ) (db : Answers) (job : NewJob) (writes : List (Write D)) :
    Except Raised (JobRow × Bool) × Session D → Prop
  | created {row new} (hcreates : db.creates = true) (hspares : db.rollsBack job = false)
      (hnew : ∀ w ∈ new, w.place = place) : InsertRun place db job writes
        (.ok (row, true), ⟨writes ++ (new ++ [⟨place, .job row.id⟩]), false⟩)
  | existing {row new} (hcreates : db.creates = false) (hspares : db.rollsBack job = false)
      (hnew : ∀ w ∈ new, w.place = place) : InsertRun place db job writes
        (.ok (row, false), ⟨writes ++ new, false⟩)
  | refused {message new} (hcreates : db.creates = false) (hspares : db.rollsBack job = false)
      (hnew : ∀ w ∈ new, w.place = place) : InsertRun place db job writes
        (.error (.repositoryError message), ⟨writes ++ new, false⟩)
  | rolledBack {message} (hcreates : db.creates = false) (hrolls : db.rollsBack job = true) :
      InsertRun place db job writes (.error (.repositoryError message), ⟨[], false⟩)

/-- The write of the upsert. -/
def queueWrite (place : ℕ) (name : QueueName) (written : Bool) : List (Write D) :=
  if written then [⟨place, .queue name⟩] else []

/-- The write of a queue has the place of its call. -/
theorem place_of_mem_queueWrite {place : ℕ} {name : QueueName} {written : Bool} (w : Write D)
    (h : w ∈ queueWrite place name written) : w.place = place := by
  cases written with
  | true =>
    obtain rfl := List.mem_singleton.mp h
    rfl
  | false => cases h

/-- The insert has met a conflict, which only a job with a key can. -/
theorem insertJobCall_conflicted (place : ℕ) (job : NewJob) (writes : List (Write D)) (written : Bool)
    (row : QueueRow) (existing : Answer (Option JobRow)) :
    InsertRun place ⟨some written, some (some row), some none, existing⟩ job writes
      ((insertJobCall place ⟨some written, some (some row), some none, existing⟩ job :
        SessionM D (JobRow × Bool)).run.run ⟨writes, false⟩) := by
  cases hkey : job.idempotencyKey with
  | none =>
    have hrun : ((insertJobCall place ⟨some written, some (some row), some none, existing⟩ job :
        SessionM D (JobRow × Bool)).run.run ⟨writes, false⟩) =
          (.error (.repositoryError "Insert without idempotency key returned no row"),
            ⟨writes ++ queueWrite place job.queueName written ++ [] ++ [], false⟩) := by
      unfold insertJobCall
      rw [hkey]
      cases written <;> rfl
    rw [hrun, List.append_nil, List.append_nil]
    refine .refused rfl ?_ place_of_mem_queueWrite
    cases existing with
    | none => exact (congrArg Option.isSome hkey)
    | some => rfl
  | some key =>
    have hcall : (insertJobCall place ⟨some written, some (some row), some none, existing⟩ job :
        SessionM D (JobRow × Bool)) = insertJobCall place ⟨some written, some (some row), some none, existing⟩
          { job with idempotencyKey := some key } := by
      unfold insertJobCall
      rw [hkey]
    rw [hcall]
    rcases existing with _ | _ | found
    · exact .rolledBack rfl (congrArg Option.isSome hkey)
    · have hrun : ((insertJobCall place ⟨some written, some (some row), some none, some none⟩
          { job with idempotencyKey := some key } : SessionM D (JobRow × Bool)).run.run ⟨writes, false⟩) =
            (.error (.repositoryError "Idempotent job conflict did not return an existing row"),
              ⟨writes ++ queueWrite place job.queueName written ++ [] ++ [] ++ [], false⟩) := by
        cases written <;> rfl
      rw [hrun, List.append_nil, List.append_nil, List.append_nil]
      exact .refused rfl rfl place_of_mem_queueWrite
    · have hrun : ((insertJobCall place ⟨some written, some (some row), some none, some (some found)⟩
          { job with idempotencyKey := some key } : SessionM D (JobRow × Bool)).run.run ⟨writes, false⟩) =
            (.ok (found, false), ⟨writes ++ queueWrite place job.queueName written ++ [] ++ [] ++ [], false⟩) := by
        cases written <;> rfl
      rw [hrun, List.append_nil, List.append_nil, List.append_nil]
      exact .existing rfl rfl place_of_mem_queueWrite

/-- Every call of `insert_job` ends in one of these ways. -/
theorem insertJobCall_runs (place : ℕ) (db : Answers) (job : NewJob) (writes : List (Write D)) :
    InsertRun place db job writes
      ((insertJobCall place db job : SessionM D (JobRow × Bool)).run.run ⟨writes, false⟩) := by
  obtain ⟨upsert, queue, insert, existing⟩ := db
  rcases upsert with _ | written
  · exact .rolledBack rfl rfl
  rcases queue with _ | _ | row
  · exact .rolledBack rfl rfl
  · have hrun : ((insertJobCall place ⟨some written, some none, insert, existing⟩ job :
        SessionM D (JobRow × Bool)).run.run ⟨writes, false⟩) =
          (.error (.repositoryError "Queue upsert did not return a row"),
            ⟨writes ++ queueWrite place job.queueName written ++ [], false⟩) := by
      cases written <;> rfl
    rw [hrun, List.append_nil]
    exact .refused rfl rfl place_of_mem_queueWrite
  rcases insert with _ | _ | inserted
  · exact .rolledBack rfl rfl
  · exact insertJobCall_conflicted place job writes written row existing
  · have hrun : ((insertJobCall place ⟨some written, some (some row), some (some inserted), existing⟩ job :
        SessionM D (JobRow × Bool)).run.run ⟨writes, false⟩) =
          (.ok (inserted, true), ⟨writes ++ queueWrite place job.queueName written ++ [] ++
            [⟨place, .job inserted.id⟩], false⟩) := by
      cases written <;> rfl
    rw [hrun, List.append_nil, List.append_assoc]
    exact .created rfl rfl place_of_mem_queueWrite

/-- An enqueue of a valid request returns what `insert_job` returns, and raises what it raises. -/
theorem enqueue_run {validate : R → Except String NewJob} {request : R} {job : NewJob}
    (hvalid : validate request = .ok job) (place : ℕ) (db : Answers) (session : Session D) :
    (enqueue place db validate request : SessionM D EnqueueResult).run.run session =
      match (insertJobCall place db job : SessionM D (JobRow × Bool)).run.run session with
      | (.ok (row, created), after) =>
        (.ok ⟨row.id, created, row.queueName, row.status, row.idempotencyKey⟩, after)
      | (.error e, after) => (.error e, after) := by
  simp only [enqueue, hvalid, ExceptT.run_bind, StateT.run_bind]
  rcases (insertJobCall place db job : SessionM D (JobRow × Bool)).run.run session with ⟨_ | ⟨row, created⟩, after⟩
  · rfl
  · rfl

/-- What an operation does to a caller at work: it adds its writes and reports of some of them, it rolls
back all that the transaction has written and reports nothing, or it ends the caller. -/
inductive Performs (validate : R → Except String NewJob) (c : Caller D) (op : CallerOp D R) : Caller D → Prop
  | goesOn {new own} (hspares : op.rollsBack validate = false) (hraises : op.raises = false)
      (hnew : ∀ w ∈ new, w.place = c.place) (hsub : own ⊆ new) (hown : own ≠ [] ↔ op.creates validate = true) :
      Performs validate c op ⟨⟨c.session.writes ++ new, false⟩, c.reported ++ own, c.place + 1, false⟩
  | rolledBack (hrolls : op.rollsBack validate = true) (hraises : op.raises = false)
      (hcreates : op.creates validate = false) :
      Performs validate c op ⟨⟨[], false⟩, c.reported, c.place + 1, false⟩
  | raised {c' : Caller D} (hraises : op.raises = true) (hended : c'.raised = true) : Performs validate c op c'

/-- An operation that creates nothing and rolls nothing back. -/
theorem Performs.of_spared {validate : R → Except String NewJob} {c : Caller D} {op : CallerOp D R}
    {new : List (Write D)} (hspares : op.rollsBack validate = false) (hcreates : op.creates validate = false)
    (hraises : op.raises = false) (hnew : ∀ w ∈ new, w.place = c.place) :
    Performs validate c op ⟨⟨c.session.writes ++ new, false⟩, c.reported, c.place + 1, false⟩ := by
  have hgoes : Performs validate c op ⟨⟨c.session.writes ++ new, false⟩, c.reported ++ [], c.place + 1, false⟩ :=
    .goesOn hspares hraises hnew (List.nil_subset _) (by simp [hcreates])
  rwa [List.append_nil] at hgoes

/-- What an operation does for a caller that has not been ended. -/
theorem Caller.performs (validate : R → Except String NewJob) {c : Caller D} (hraised : c.raised = false)
    (haborted : c.session.aborted = false) (op : CallerOp D R) : Performs validate c op (c.perform validate op) := by
  obtain ⟨⟨writes, aborted⟩, reported, place, raised⟩ := c
  obtain rfl : raised = false := hraised
  obtain rfl : aborted = false := haborted
  cases op with
  | write row answer =>
    cases answer with
    | none => exact .raised rfl rfl
    | some _ =>
      exact .goesOn rfl rfl (by simp) (List.Subset.refl _)
        ⟨fun _ => rfl, fun _ => List.cons_ne_nil _ _⟩
  | enqueue request db =>
    cases hvalid : validate request with
    | error message =>
      have hperform : Caller.perform validate ⟨⟨writes, false⟩, reported, place, false⟩ (.enqueue request db) =
          ⟨⟨writes ++ [], false⟩, reported, place + 1, false⟩ := by
        simp only [Caller.perform, enqueue, hvalid, List.append_nil]
        rfl
      rw [hperform]
      exact .of_spared (by simp [CallerOp.rollsBack, hvalid]) (by simp [CallerOp.creates, hvalid]) rfl (by simp)
    | ok job =>
      have hcreates : (CallerOp.enqueue request db : CallerOp D R).creates validate = db.creates := by
        simp [CallerOp.creates, hvalid]
      have hrolls : (CallerOp.enqueue request db : CallerOp D R).rollsBack validate = db.rollsBack job := by
        simp [CallerOp.rollsBack, hvalid]
      have hrun := insertJobCall_runs place db job writes
      simp only [Caller.perform, enqueue_run hvalid, Bool.false_eq_true, if_false]
      generalize (insertJobCall place db job : SessionM D (JobRow × Bool)).run.run ⟨writes, false⟩ = result at hrun
      cases hrun with
      | @created row new hcreated hspares hnew =>
        refine .goesOn (hrolls.trans hspares) rfl (fun w hw => ?_) (List.subset_append_right _ _)
          ⟨fun _ => hcreates.trans hcreated, fun _ => List.cons_ne_nil _ _⟩
        rcases List.mem_append.mp hw with hold | hjob
        · exact hnew w hold
        · obtain rfl := List.mem_singleton.mp hjob
          rfl
      | existing hcreated hspares hnew =>
        exact Performs.of_spared (hrolls.trans hspares) (hcreates.trans hcreated) rfl hnew
      | refused hcreated hspares hnew =>
        exact Performs.of_spared (hrolls.trans hspares) (hcreates.trans hcreated) rfl hnew
      | rolledBack hcreated hrolled =>
        exact .rolledBack (hrolls.trans hrolled) rfl (hcreates.trans hcreated)

/-! ## Atomicity -/

/-- The operations of a program up to its last rollback. -/
def lostOps (validate : R → Except String NewJob) (program : List (CallerOp D R)) : List (CallerOp D R) :=
  program.rdropWhile fun op => !op.rollsBack validate

/-- The operations of a program after its last rollback. -/
def keptOps (validate : R → Except String NewJob) (program : List (CallerOp D R)) : List (CallerOp D R) :=
  program.rtakeWhile fun op => !op.rollsBack validate

/-- The program commits, and the last enqueue with a failing statement stands between operations that
have written something. -/
def Splits (validate : R → Except String NewJob) (program : List (CallerOp D R)) (commit : Answer Unit) : Bool :=
  commit.isSome && program.all (fun op => !op.raises) && (lostOps validate program).any (CallerOp.creates validate) &&
    (keptOps validate program).any (CallerOp.creates validate)

/-- What a caller at work has been told: the reports from before the last rollback are of no write of
the session, and the others are. -/
structure Tracks (validate : R → Except String NewJob) (program : List (CallerOp D R)) (c : Caller D) : Prop where
  raised : c.raised = false
  aborted : c.session.aborted = false
  places : ∀ w ∈ c.reported, w.place < c.place
  reports : ∃ lost kept, c.reported = lost ++ kept ∧ (∀ w ∈ lost, w ∉ c.session.writes) ∧
    kept ⊆ c.session.writes ∧ (lost ≠ [] ↔ (lostOps validate program).any (CallerOp.creates validate) = true) ∧
    (kept ≠ [] ↔ (keptOps validate program).any (CallerOp.creates validate) = true)

/-- The operations of a program are lost or kept. -/
theorem lostOps_append_keptOps (validate : R → Except String NewJob) (program : List (CallerOp D R)) :
    lostOps validate program ++ keptOps validate program = program := by
  simp [lostOps, keptOps, List.rdropWhile, List.rtakeWhile, ← List.reverse_append]

/-- One more operation loses all of them if it rolls back. -/
theorem lostOps_concat (validate : R → Except String NewJob) (program : List (CallerOp D R)) (op : CallerOp D R) :
    lostOps validate (program ++ [op]) =
      if op.rollsBack validate then program ++ [op] else lostOps validate program := by
  rw [lostOps, List.rdropWhile_concat]
  cases op.rollsBack validate <;> rfl

/-- One more operation is kept, unless it rolls back. -/
theorem keptOps_concat (validate : R → Except String NewJob) (program : List (CallerOp D R)) (op : CallerOp D R) :
    keptOps validate (program ++ [op]) =
      if op.rollsBack validate then [] else keptOps validate program ++ [op] := by
  rw [keptOps, List.rtakeWhile_concat]
  cases op.rollsBack validate <;> rfl

/-- A joined list has an element if one of its parts has. -/
theorem append_ne_nil_iff (l l' : List α) : l ++ l' ≠ [] ↔ l ≠ [] ∨ l' ≠ [] := by
  rw [Ne, List.append_eq_nil_iff, not_and_or]

/-- An operation that does not end the caller keeps the account of its reports. -/
theorem Tracks.step {validate : R → Except String NewJob} {program : List (CallerOp D R)} {c c' : Caller D}
    {op : CallerOp D R} (h : Tracks validate program c) (hop : Performs validate c op c')
    (hraises : op.raises = false) : Tracks validate (program ++ [op]) c' := by
  obtain ⟨lost, kept, hreported, hlost, hkept, hlostOps, hkeptOps⟩ := h.reports
  cases hop with
  | @goesOn new own hspares _ hnew hsub hown =>
    have hplaces (w : Write D) (hw : w ∈ c.reported) : w ∉ new := by
      intro hmem
      exact (h.places w hw).ne (hnew w hmem)
    refine ⟨rfl, rfl, fun w hw => ?_, lost, kept ++ own, by simp [hreported], fun w hw hmem => ?_, ?_, ?_, ?_⟩
    · rcases List.mem_append.mp hw with hold | hmine
      · exact (h.places w hold).trans (Nat.lt_succ_self _)
      · exact (hnew w (hsub hmine)).trans_lt (Nat.lt_succ_self _)
    · rcases List.mem_append.mp hmem with hold | hmine
      · exact hlost w hw hold
      · exact hplaces w (by simp [hreported, hw]) hmine
    · exact List.append_subset.mpr ⟨fun w hw => List.mem_append_left _ (hkept hw),
        fun w hw => List.mem_append_right _ (hsub hw)⟩
    · rw [hlostOps, lostOps_concat, hspares]
      rfl
    · rw [append_ne_nil_iff, hkeptOps, hown, keptOps_concat, hspares]
      simp
  | rolledBack hrolls _ hcreates =>
    refine ⟨rfl, rfl, fun w hw => (h.places w hw).trans (Nat.lt_succ_self _), c.reported, [], by simp, by simp,
      by simp, ?_, ?_⟩
    · rw [hreported, append_ne_nil_iff, hlostOps, hkeptOps, lostOps_concat, if_pos hrolls, ← Bool.or_eq_true,
        ← List.any_append, lostOps_append_keptOps]
      simp [hcreates]
    · rw [keptOps_concat, if_pos hrolls]
      simp
  | raised hraised => cases hraises.symm.trans hraised

/-- A failing write of the caller ends it. -/
theorem Performs.raised_of_raises {validate : R → Except String NewJob} {c c' : Caller D} {op : CallerOp D R}
    (h : Performs validate c op c') (hraises : op.raises = true) : c'.raised = true := by
  cases h with
  | goesOn _ hno => cases hraises.symm.trans hno
  | rolledBack _ hno => cases hraises.symm.trans hno
  | raised _ hended => exact hended

/-- A caller that has been ended by an error of its own stays so. -/
theorem raised_of_raised (validate : R → Except String NewJob) {c : Caller D} (h : c.raised = true)
    (op : CallerOp D R) : (c.perform validate op).raised = true := by
  simp [Caller.perform, h]

/-- Every run of a caller accounts for its reports, or has been ended by an error of its own. -/
theorem runCaller_tracks (validate : R → Except String NewJob) (program : List (CallerOp D R)) :
    (program.all (fun op => !op.raises) = true → Tracks validate program (runCaller validate program)) ∧
      (program.all (fun op => !op.raises) = false → (runCaller validate program).raised = true) := by
  induction program using List.reverseRecOn with
  | nil =>
    refine ⟨fun _ => ⟨rfl, rfl, fun w hw => ?_, [], [], rfl, by simp, by simp, ?_, ?_⟩, fun h => ?_⟩
    · cases hw
    · simp [lostOps]
    · simp [keptOps]
    · cases h
  | append_singleton program op ih =>
    have hrun : runCaller validate (program ++ [op]) = (runCaller validate program).perform validate op :=
      List.foldl_concat ..
    rw [hrun, List.all_append, List.all_cons, List.all_nil, Bool.and_true]
    cases hprogram : program.all fun op => !op.raises with
    | true =>
      have htracks := ih.1 hprogram
      have hop := Caller.performs validate htracks.raised htracks.aborted op
      cases hraises : op.raises with
      | true =>
        refine ⟨fun h => ?_, fun _ => hop.raised_of_raises hraises⟩
        cases h
      | false =>
        refine ⟨fun _ => htracks.step hop hraises, fun h => ?_⟩
        cases h
    | false =>
      refine ⟨fun h => ?_, fun _ => raised_of_raised validate (ih.2 hprogram) op⟩
      cases h

/-- For every program, whatever the validations and the database say, either all of the writes and jobs
that were reported to the caller are committed or none of them, if and only if no enqueue with a failing
statement splits the program. -/
theorem atomic_iff_not_splits (validate : R → Except String NewJob) (program : List (CallerOp D R))
    (commit : Answer Unit) :
    Atomic (runCaller validate program).reported ((runCaller validate program).committed commit) ↔
      Splits validate program commit = false := by
  obtain ⟨htracks, hended⟩ := runCaller_tracks validate program
  cases hraises : program.all fun op => !op.raises with
  | false =>
    have hnone : (runCaller validate program).committed commit = [] := by simp [Caller.committed, hended hraises]
    refine ⟨fun _ => by simp [Splits, hraises], fun _ => .inr fun w _ => by simp [hnone]⟩
  | true =>
    have h := htracks hraises
    obtain ⟨lost, kept, hreported, hlost, hkept, hlostOps, hkeptOps⟩ := h.reports
    cases commit with
    | none =>
      have hnone : (runCaller validate program).committed none = [] := by simp [Caller.committed]
      exact ⟨fun _ => by simp [Splits], fun _ => .inr fun w _ => by simp [hnone]⟩
    | some _ =>
      have hcommitted : (runCaller validate program).committed (some ()) =
          (runCaller validate program).session.writes := by
        simp [Caller.committed, h.raised, h.aborted]
      rw [hcommitted, hreported]
      constructor
      · intro hatomic
        by_contra hsplits
        simp only [Splits, Option.isSome_some, hraises, Bool.true_and, Bool.not_eq_false, Bool.and_eq_true,
          ← hlostOps, ← hkeptOps] at hsplits
        obtain ⟨w, hw⟩ := List.exists_mem_of_ne_nil _ hsplits.1
        obtain ⟨w', hw'⟩ := List.exists_mem_of_ne_nil _ hsplits.2
        rcases hatomic with hall | hnone
        · exact hlost w hw (hall w (List.mem_append_left _ hw))
        · exact hnone w' (List.mem_append_right _ hw') (hkept hw')
      · intro hsplits
        by_cases hempty : lost = []
        · subst hempty
          exact .inl fun w hw => hkept hw
        · have hkeptEmpty : kept = [] := by
            by_contra hne
            simp [Splits, hraises, hlostOps.mp hempty, hkeptOps.mp hne] at hsplits
          subst hkeptEmpty
          refine .inr fun w hw => hlost w ?_
          simpa using hw

/-- A caller writes an order, enqueues a job whose insertion fails in the database, goes on with a second
write and commits. -/
def splitProgram : List (CallerOp String NewJob) :=
  [.write "order" (some ()),
    .enqueue (handlerJob "mail" 2) ⟨some true, some (some ⟨"mail", false, 10, 0, 0⟩), none, none⟩,
    .write "audit" (some ())]

/-- A failing insertion is caught and the caller goes on: what it has written before is lost, and what it writes
after that is committed. -/
theorem not_atomic_splitProgram : ¬ ∀ (validate : NewJob → Except String NewJob)
    (program : List (CallerOp String NewJob)) (commit : Answer Unit),
    Atomic (runCaller validate program).reported ((runCaller validate program).committed commit) := by
  intro hall
  have hreported : (runCaller Except.ok splitProgram).reported = [⟨0, .domain "order"⟩, ⟨2, .domain "audit"⟩] := by
    decide +kernel
  have hcommitted : (runCaller Except.ok splitProgram).committed (some ()) = [⟨2, .domain "audit"⟩] := by
    decide +kernel
  have hatomic := hall Except.ok splitProgram (some ())
  rw [hreported, hcommitted] at hatomic
  simp [Atomic] at hatomic

end PgRelay
