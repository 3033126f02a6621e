import PgRelay.Isolation
import PgRelay.Attempts

/-!
# Pausing a queue

A pause has to lock the row of its queue, and so has a claim before it takes a job of the queue. The
claim tests the newest version of the row once it has the lock, and keeps the lock up to its commit.
So a claim that leases a job of the queue commits either before the pause or, having seen the pause,
not at all, wherever it stood when the pause was committed.
-/

namespace PgRelay

open RowStore

variable {s s' : State} {t : TxnId} {T : Txn} {effect : Effect} {q : QueueName}

/-! ## Claims hold unpaused queues -/

/-- The transaction has locked the row of the queue, and the queue is not paused. -/
def HoldsUnpaused (s : State) (t : TxnId) (q : QueueName) : Prop :=
  s.queueLocks q = some t ∧ ∃ row, s.queues.get q = some row ∧ row.paused = false

/-- The queues that a claim has taken jobs from or still takes them from. -/
def ClaimPc.HoldsUnpaused (s : State) (t : TxnId) (T : Txn) : ClaimPc → Prop
  | .claiming _ _ active picked => (∀ a ∈ active, PgRelay.HoldsUnpaused s t a.name) ∧
      ∀ id ∈ picked, s.jobLocks id = some t ∧
        ∀ entry, (T.view s).get id = some entry → PgRelay.HoldsUnpaused s t entry.row.queueName
  | .finished rows => ∀ row ∈ rows, PgRelay.HoldsUnpaused s t row.queueName
  | _ => True

/-- A claim takes jobs from queues that it holds and that are not paused. -/
def ClaimsUnpaused (s : State) (t : TxnId) (T : Txn) : Prop :=
  ∀ args pc, T.task = .claimLoop args pc → pc.HoldsUnpaused s t T

/-- The steps of others leave it so. -/
theorem HoldsUnpaused.elsewhere (h : HoldsUnpaused s t q) (he : Elsewhere s s' t T) :
    HoldsUnpaused s' t q := by
  obtain ⟨hlock, row, hrow, hpaused⟩ := h
  exact ⟨(he.queueLocks q).mpr hlock, row, (he.queues q hlock).trans hrow, hpaused⟩

/-- Nobody else pauses a queue that a claim holds. -/
theorem ClaimsUnpaused.elsewhere (h : ClaimsUnpaused s t T) (he : Elsewhere s s' t T) :
    ClaimsUnpaused s' t T := by
  intro args pc hpc
  have hholds := h args pc hpc
  cases pc with
  | claiming snapshot todo active picked =>
    refine ⟨fun a ha => (hholds.1 a ha).elsewhere he, fun id hid => ?_⟩
    obtain ⟨hlock, hqueue⟩ := hholds.2 id hid
    refine ⟨(he.jobLocks id).mpr hlock, fun entry hentry => ?_⟩
    rw [he.view id (he.jobs id hlock)] at hentry
    exact (hqueue entry hentry).elsewhere he
  | finished rows => exact fun row hrow => (hholds row hrow).elsewhere he
  | _ => trivial

/-- A claim keeps the queues it holds. -/
theorem HoldsUnpaused.perform (h : HoldsUnpaused s t q) : HoldsUnpaused (s.perform t T effect) t q :=
  ⟨takeLock_of_held _ h.1, h.2⟩

/-- A claim that writes no job keeps the candidates it has picked. -/
theorem HoldsUnpaused.picked {picked : List JobId} (hchanges : effect.changes = [])
    (h : ∀ id ∈ picked, s.jobLocks id = some t ∧
      ∀ entry, (T.view s).get id = some entry → HoldsUnpaused s t entry.row.queueName) :
    ∀ id ∈ picked, (s.perform t T effect).jobLocks id = some t ∧
      ∀ entry, ((T.after effect).view (s.perform t T effect)).get id = some entry →
        HoldsUnpaused (s.perform t T effect) t entry.row.queueName := by
  intro id hid
  obtain ⟨hlock, hqueue⟩ := h id hid
  refine ⟨takeLock_of_held _ hlock, fun entry hentry => ?_⟩
  rw [view_perform_of_nil hchanges] at hentry
  exact (hqueue entry hentry).perform

/-- A claim that locks the row of a queue, and finds it not paused, holds the queue. -/
theorem holdsUnpaused_perform_lock {row : QueueRow} (hlock : effect.queueLock = some q)
    (hrow : s.queues.get q = some row) (hpaused : row.paused = false) :
    HoldsUnpaused (s.perform t T effect) t q := by
  refine ⟨?_, row, ?_, hpaused⟩
  · change takeLock s.queueLocks t effect.queueLock q = some t
    rw [hlock]
    exact takeLock_self _ _ _
  · exact hrow

/-- Every step of a claim keeps to the queues that are not paused. -/
theorem ClaimsUnpaused.step (h : ClaimsUnpaused s t T) (hreach : Reachable s) (hT : s.txns t = some T)
    (he : Steps s t T effect) : ClaimsUnpaused (s.perform t T effect) t (T.after effect) := by
  intro args pc' hpc'
  obtain ⟨pc, hpc, hmove⟩ := he.claimMove_of_task hpc'
  have hholds := h args pc hpc
  have hview := hreach.queueView_of_claim hT hpc
  cases hmove with
  | @recover _ next _ hrecovery hrecovery' htask =>
    obtain rfl := (Task.claimLoop.inj (htask.symm.trans hpc')).2
    cases next with
    | begin | recovering | recovered => trivial
    | _ => cases hrecovery'
  | beginLocking | lock | endLocking =>
    obtain rfl := (Task.claimLoop.inj hpc').2
    trivial
  | beginClaiming =>
    obtain rfl := (Task.claimLoop.inj hpc').2
    exact ⟨by simp, by simp⟩
  | skipQueue hlock hexists =>
    obtain rfl := (Task.claimLoop.inj hpc').2
    exact ⟨fun a ha => (hholds.1 a ha).perform, HoldsUnpaused.picked rfl hholds.2⟩
  | @activate snapshot q todo active picked row hrow hpaused =>
    obtain rfl := (Task.claimLoop.inj hpc').2
    refine ⟨fun a ha => ?_, HoldsUnpaused.picked rfl hholds.2⟩
    rcases List.mem_append.mp ha with hold | hnew
    · exact (hholds.1 a hold).perform
    · rw [List.mem_singleton.mp hnew]
      rw [hview] at hrow
      obtain rfl : row.name = q := Table.key_of_get hrow
      exact holdsUnpaused_perform_lock rfl hrow hpaused
  | skipJob hactive =>
    obtain rfl := (Task.claimLoop.inj hpc').2
    refine ⟨fun a ha => ?_, HoldsUnpaused.picked rfl hholds.2⟩
    obtain ⟨b, hb, hname⟩ := hactive a ha
    rw [hname]
    exact (hholds.1 b hb).perform
  | @pick snapshot todo active active' picked id entry hactive hget hqueue =>
    obtain rfl := (Task.claimLoop.inj hpc').2
    refine ⟨fun a ha => ?_, fun id' hid' => ?_⟩
    · obtain ⟨b, hb, hname⟩ := hactive a ha
      rw [hname]
      exact (hholds.1 b hb).perform
    · rcases List.mem_append.mp hid' with hold | hnew
      · exact HoldsUnpaused.picked rfl hholds.2 id' hold
      · obtain rfl := List.mem_singleton.mp hnew
        refine ⟨takeLock_self _ _ _, fun entry' hentry' => ?_⟩
        rw [view_perform_of_nil rfl, hget] at hentry'
        obtain rfl := Option.some.inj hentry'
        obtain ⟨b, hb, hname⟩ := hqueue
        rw [← hname]
        exact (hholds.1 b hb).perform
  | claim hentries =>
    obtain rfl := (Task.claimLoop.inj hpc').2
    intro row hrow
    obtain ⟨entry, hentry, rfl⟩ := List.mem_map.mp hrow
    rw [hentries] at hentry
    obtain ⟨id, hid, hget⟩ := List.mem_filterMap.mp hentry
    exact ((hholds.2 id (mem_picked_of_mem_claimedIds hid)).2 entry hget).perform

/-- In every reachable state the claims of an open transaction are from queues that it holds and that are not
paused. -/
theorem Reachable.claimsUnpaused (h : Reachable s) (hT : s.txns t = some T) : ClaimsUnpaused s t T := by
  obtain ⟨clock, hrun⟩ := h
  refine ReachesUnder.txn_rule (P := ClaimsUnpaused) ?_ ?_ ?_ hrun t T hT
  · intro s request task hreach _ hr args pc hpc
    obtain rfl : pc = .begin := request_claim_begin (hr.trans (congrArg some hpc))
    trivial
  · exact fun s t T a effect hreach hT _ he hold => hold.step hreach hT he.steps
  · intro s a s' t T _ _ _ _ _ he hold
    exact hold.elsewhere he

/-! ## Pauses and resumes -/

/-- What `update_queue` has made of the pause of a queue, once it has finished. -/
def Task.pauses (q : QueueName) : Task → Option Bool
  | .updateQueue args .finished => if args.name = q then args.paused else none
  | _ => none

/-- The steps that write queues: a missing queue is created, or an existing one is updated. -/
inductive QueueMove (s : State) (T : Txn) (effect : Effect) : Prop
  | quiet (hwrites : effect.queueWrites = []) (hpauses : ∀ q, effect.task.pauses q = none)
  | create {name} (hnone : (T.queueView s).get name = none)
      (hwrites : effect.queueWrites = [newQueue T.now name]) (hpauses : ∀ q, effect.task.pauses q = none)
  | update {args : QueueArgs} {row limit} (hrow : (T.queueView s).get args.name = some row)
      (htask : effect.task = .updateQueue args .finished) (hlock : effect.queueLock = some args.name)
      (hwrites : effect.queueWrites = [{ row with
        paused := args.paused.getD row.paused, concurrencyLimit := limit, updatedAt := T.now }])

/-- The upsert of a queue sets no pause. -/
theorem upsertQueue_moves {name : QueueName} {next : Task} (hnext : ∀ q, next.pauses q = none)
    (he : upsertQueue s t T name next = some effect) : QueueMove s T effect := by
  obtain ⟨-, rfl⟩ | ⟨hnone, -, rfl⟩ := upsertQueue_cases he
  · exact .quiet rfl hnext
  · exact .create hnone rfl hnext

/-- Every statement of an update of a queue is one of these moves. -/
theorem queueStatement_moves {args : QueueArgs} {pc : QueuePc}
    (he : queueStatement s t T args pc = some effect) : QueueMove s T effect := by
  obtain ⟨-, hupsert⟩ | ⟨pc', hpc, rfl⟩ | ⟨row, -, -, hget, -, rfl⟩ := queueStatement_cases he
  · exact upsertQueue_moves (fun _ => rfl) hupsert
  · refine .quiet rfl fun q => ?_
    rcases hpc with ⟨-, rfl | rfl | ⟨rfl, hnone, -⟩⟩ | ⟨-, rfl⟩
    · rfl
    · rfl
    · simp [Task.pauses, hnone.1]
    · rfl
  · exact .update hget rfl rfl rfl

/-- Every step of every transaction is one of these. -/
theorem Steps.queueMove (h : Steps s t T effect) : QueueMove s T effect := by
  have hquiet {effect' : Effect} (hwrites : effect'.queueWrites = [])
      (hpauses : ∀ q, effect'.task.pauses q = none) : QueueMove s T effect' := .quiet hwrites hpauses
  by_cases hother : T.task.IsOther
  · rcases h with he | he | ⟨job, he⟩
    · unfold statement at he
      split at he
      · exact absurd ‹_› (hother _ _)
      · obtain ⟨pc', -, rfl⟩ | ⟨entry, -, -, -, -, rfl⟩ := callStatement_cases he <;>
          exact hquiet rfl fun _ => rfl
      · obtain ⟨pc', -, rfl⟩ | ⟨entry, -, -, -, -, rfl⟩ := cancelStatement_cases he <;>
          exact hquiet rfl fun _ => rfl
      · rcases insertStatement_cases he with he | he | ⟨pc', keyLock, queueShare, rfl⟩
        · exact upsertQueue_moves (fun _ => rfl) he
        · obtain ⟨-, -, rfl⟩ := insertNew_cases he
          exact hquiet rfl fun _ => rfl
        · exact hquiet rfl fun _ => rfl
      · obtain ⟨-, ⟨pc', -, rfl⟩ | ⟨source, -, rfl⟩⟩ := replayStatement_cases he <;>
          exact hquiet rfl fun _ => rfl
      · exact queueStatement_moves he
      · unfold purgeStatement at he
        repeat' split at he
        all_goals cases he
        all_goals exact hquiet rfl fun _ => rfl
    · unfold scanStatement at he
      split at he
      · exact absurd ‹_› (hother _ _)
      · cases he
    · obtain ⟨done, pc, -, -, -, rfl⟩ := enqueueMore_cases he
      exact hquiet rfl fun _ => rfl
  · obtain ⟨args, pc, hpc⟩ : ∃ args pc, T.task = .claimLoop args pc := by simpa [Task.IsOther] using hother
    cases h.claimMove hpc with
    | recover _ _ htask _ hwrites =>
      refine hquiet hwrites fun q => ?_
      rw [htask]
      rfl
    | _ => exact hquiet rfl fun _ => rfl

/-- What an open transaction is going to make of the pauses of the queues it holds. -/
structure PausesOk (s : State) (t : TxnId) (T : Txn) : Prop where
  written : ∀ q paused, T.task.pauses q = some paused → s.queueLocks q = some t ∧
    ∃ row, (T.queueView s).get q = some row ∧ row.paused = paused
  kept : ∀ q row, T.task.pauses q = none → s.queues.get q = some row →
    ∃ row', (T.queueView s).get q = some row' ∧ row'.paused = row.paused

/-- A transaction sees the queues it does not hold as they are committed. -/
theorem Reachable.queueView_of_free (h : Reachable s) (hT : s.txns t = some T)
    (hfree : s.queueLocks q ≠ some t) : (T.queueView s).get q = s.queues.get q := by
  apply Table.get_foldl_put
  intro w hw hname
  have hheld := h.queueWritesHeld t T hT w hw
  rw [show w.name = q from hname] at hheld
  exact hfree hheld

/-- The steps of others leave it so. -/
theorem PausesOk.elsewhere (h : PausesOk s t T) (he : Elsewhere s s' t T) (hreach' : Reachable s')
    (hT' : s'.txns t = some T) : PausesOk s' t T := by
  have hview {q : QueueName} (hlock : s.queueLocks q = some t) :
      (T.queueView s').get q = (T.queueView s).get q := Table.get_foldl_put_congr _ (he.queues q hlock)
  refine ⟨fun q paused hpauses => ?_, fun q row hpauses hrow => ?_⟩
  · obtain ⟨hlock, row, hrow, hpaused⟩ := h.written q paused hpauses
    exact ⟨(he.queueLocks q).mpr hlock, row, (hview hlock).trans hrow, hpaused⟩
  · by_cases hlock : s.queueLocks q = some t
    · rw [he.queues q hlock] at hrow
      obtain ⟨row', hrow', hpaused⟩ := h.kept q row hpauses hrow
      exact ⟨row', (hview hlock).trans hrow', hpaused⟩
    · have hfree : s'.queueLocks q ≠ some t := fun hheld => hlock ((he.queueLocks q).mp hheld)
      exact ⟨row, (hreach'.queueView_of_free hT' hfree).trans hrow, rfl⟩

/-- A transaction that has finished an update of a queue takes no further step. -/
theorem Steps.pauses_eq_none (h : Steps s t T effect) (q : QueueName) : T.task.pauses q = none := by
  unfold Task.pauses
  split
  · rename_i args htask
    rcases h with he | he | ⟨job, he⟩
    · simp [statement, htask, queueStatement] at he
    · simp [scanStatement, htask] at he
    · simp [enqueueMore, htask] at he
  · rfl

/-- Only the update of a queue changes its pause. -/
theorem PausesOk.step (h : PausesOk s t T) (he : Steps s t T effect) :
    PausesOk (s.perform t T effect) t (T.after effect) := by
  have hold {q : QueueName} {row : QueueRow} (hrow : s.queues.get q = some row) :
      ∃ row', (T.queueView s).get q = some row' ∧ row'.paused = row.paused :=
    h.kept q row (he.pauses_eq_none q) hrow
  cases he.queueMove with
  | quiet hwrites hpauses =>
    refine ⟨fun q paused hq => ?_, fun q row _ hrow => ?_⟩
    · simp [Txn.after, hpauses] at hq
    · rw [queueView_perform, hwrites]
      exact hold hrow
  | @create name hnone hwrites hpauses =>
    refine ⟨fun q paused hq => ?_, fun q row _ hrow => ?_⟩
    · simp [Txn.after, hpauses] at hq
    · obtain ⟨row', hrow', hpaused⟩ := hold hrow
      have hne : name ≠ q := by
        rintro rfl
        cases hnone.symm.trans hrow'
      refine ⟨row', ?_, hpaused⟩
      rw [queueView_perform, hwrites]
      simpa [Table.get_put, newQueue, hne] using hrow'
  | @update args row limit hrow htask hlock hwrites =>
    have hname : row.name = args.name := Table.key_of_get hrow
    have hview (q : QueueName) : ((T.after effect).queueView (s.perform t T effect)).get q =
        if args.name = q then some { row with
          paused := args.paused.getD row.paused, concurrencyLimit := limit, updatedAt := T.now }
        else (T.queueView s).get q := by
      rw [queueView_perform, hwrites]
      simp [Table.get_put, hname]
    have hpauses (q : QueueName) : (T.after effect).task.pauses q =
        if args.name = q then args.paused else none := by
      simp [Txn.after, htask, Task.pauses]
    refine ⟨fun q paused hq => ?_, fun q old hq hold' => ?_⟩
    · rw [hpauses] at hq
      split_ifs at hq with heq
      subst heq
      refine ⟨?_, _, by rw [hview, if_pos rfl], by simp [hq]⟩
      change takeLock s.queueLocks t effect.queueLock args.name = some t
      rw [hlock]
      exact takeLock_self _ _ _
    · rw [hpauses] at hq
      obtain ⟨row', hrow', hpaused⟩ := hold hold'
      rw [hview]
      split_ifs at hq ⊢ with heq
      · subst heq
        obtain rfl := Option.some.inj (hrow.symm.trans hrow')
        exact ⟨_, rfl, by simpa [hq] using hpaused⟩
      · exact ⟨row', hrow', hpaused⟩

/-- In every reachable state it is so of every open transaction. -/
theorem Reachable.pausesOk (h : Reachable s) (hT : s.txns t = some T) : PausesOk s t T := by
  obtain ⟨clock, hrun⟩ := h
  refine ReachesUnder.txn_rule (P := PausesOk) ?_ ?_ ?_ hrun t T hT
  · intro s request task hreach _ hr
    refine ⟨fun q paused hpauses => ?_, fun q row _ hrow => ⟨row, hrow, rfl⟩⟩
    unfold Task.pauses at hpauses
    split at hpauses
    · rename_i htask
      cases request with
      | updateQueue args => cases hr.trans (congrArg some htask)
      | call i op =>
        obtain ⟨x, -, hx⟩ := Option.map_eq_some_iff.mp hr
        cases hx.trans htask
      | enqueue job =>
        simp only [Request.task] at hr
        split_ifs at hr
        cases hr.trans (congrArg some htask)
      | _ => cases hr.trans (congrArg some htask)
    · cases hpauses
  · exact fun s t T a effect hreach hT _ he hold => hold.step he.steps
  · intro s a s' t T hreach _ hs _ hT' he hold
    exact hold.elsewhere he (hreach.tail hs) hT'

/-! ## The barrier -/

/-- An observer notes which queues are paused: those of which a pause has been committed and no resume
since. -/
def notePauses (paused : QueueName → Bool) (s : State) (a : Action) (_ : State) (q : QueueName) : Bool :=
  match a with
  | .commit t => ((s.txns t).bind fun T => T.task.pauses q).getD (paused q)
  | _ => paused q

/-- A queue under a pause is paused. -/
def PausesShown (s : State) (paused : QueueName → Bool) : Prop :=
  ∀ q, paused q = true → ∃ row, s.queues.get q = some row ∧ row.paused = true

/-- Every action keeps the notes in step with the table. -/
theorem PausesShown.step {paused : QueueName → Bool} {a : Action} (h : PausesShown s paused)
    (hreach : Reachable s) (hs : step s a = some s') : PausesShown s' (notePauses paused s a s') := by
  intro q hq
  rcases step_cases hs with ⟨elapsed, rfl, rfl⟩ | ⟨request, task, rfl, hr, rfl⟩ |
    ⟨u, U, effect, hU, he, rfl⟩ | ⟨u, U, rfl, hU, -, rfl⟩ | ⟨u, U, rfl, -, rfl⟩
  · exact h q hq
  · exact h q hq
  · refine h q ?_
    rcases he with ⟨rfl, -⟩ | ⟨rfl, -⟩ | ⟨job, rfl, -⟩ <;> exact hq
  · have hpauses := hreach.pausesOk hU
    simp only [notePauses, hU, Option.bind_some] at hq
    change ∃ row, (U.queueView s).get q = some row ∧ row.paused = true
    cases htask : U.task.pauses q with
    | some b =>
      obtain ⟨-, row, hrow, hpaused⟩ := hpauses.written q b htask
      rw [htask, Option.getD_some] at hq
      exact ⟨row, hrow, hpaused.trans hq⟩
    | none =>
      rw [htask, Option.getD_none] at hq
      obtain ⟨row, hrow, hpaused⟩ := h q hq
      obtain ⟨row', hrow', hpaused'⟩ := hpauses.kept q row htask hrow
      exact ⟨row', hrow', hpaused'.trans hpaused⟩
  · exact h q hq

/-- While a pause of a queue is in force, no open transaction has a claim of one of its jobs to
commit, wherever it stood when the pause was committed. -/
theorem pause_barrier {clock : Timestamp} {paused : QueueName → Bool}
    (h : Reaches (observed step notePauses) (State.init clock, fun _ => false) (s, paused)) {t : TxnId} {T : Txn}
    (hT : s.txns t = some T) {x : Execution} {leaseSeconds : Int}
    (hclaim : .claimed x leaseSeconds ∈ T.events) : paused x.job.queueName = false := by
  obtain ⟨hreach, hshown⟩ : Reachable s ∧ PausesShown s paused := by
    refine h.observed_invariant (fun _ _ => True) (I := fun s paused => Reachable s ∧ PausesShown s paused)
      ⟨⟨clock, .refl⟩, fun q hq => by cases hq⟩ ?_
    rintro s paused a s' ⟨hreach, hshown⟩ - hs
    exact ⟨hreach.tail hs, hshown.step hreach hs⟩
  obtain ⟨args, rows, htask, hrow⟩ := (hreach.writes hT).of_claimed hclaim
  obtain ⟨-, row, hget, hunpaused⟩ := hreach.claimsUnpaused hT args _ htask x.job hrow
  by_contra hpaused
  obtain ⟨row', hget', hpaused'⟩ := hshown _ (Bool.eq_true_of_not_eq_false hpaused)
  obtain rfl := Option.some.inj (hget.symm.trans hget')
  exact absurd (hunpaused.symm.trans hpaused') (by decide)

/-- A job of a queue that has been paused and resumed is claimed, up to the commit. -/
def resumedRun : List Action :=
  transaction 0 (.enqueue (handlerJob "mail" 2)) 5 ++
    transaction 1 (.updateQueue ⟨"mail", some true, none⟩) 3 ++
    .begin (.claimLoop ⟨"w", ["mail"], 1, 60, 10⟩) :: List.replicate 3 (.advance 2) ++
    transaction 3 (.updateQueue ⟨"mail", some false, none⟩) 3 ++ List.replicate 6 (.advance 2)

/-- A queue is paused and resumed, and then a job of it is claimed. -/
theorem pause_barrier_resumedRun : ∃ s paused T x leaseSeconds,
    run (observed step notePauses) (State.init 0, fun _ => false) resumedRun = some (s, paused) ∧
      s.txns 2 = some T ∧ .claimed x leaseSeconds ∈ T.events ∧ paused x.job.queueName = false := by
  have hrun : (run (observed step notePauses) (State.init 0, fun _ => false) resumedRun).map
      (fun sh => (sh.1.txns 2).map fun T => T.events.head?.map fun e => e.isClaim) = some (some (some true)) := by
    decide +kernel
  obtain ⟨⟨s, paused⟩, hs, hclaimed⟩ := Option.map_eq_some_iff.mp hrun
  obtain ⟨T, hT, hhead⟩ := Option.map_eq_some_iff.mp hclaimed
  obtain ⟨e, he, hclaim⟩ := Option.map_eq_some_iff.mp hhead
  cases e with
  | claimed x leaseSeconds =>
    have hmem := List.mem_of_mem_head? he
    exact ⟨s, paused, T, x, leaseSeconds, hs, hT, hmem, pause_barrier (reaches_of_run hs) hT hmem⟩
  | _ => cases hclaim

end PgRelay
