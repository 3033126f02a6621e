import PgRelay.Programs
import Mathlib.Algebra.Ring.Nat

/-!
# Queue locks bound the leases of a queue

A claim counts the leased jobs of a queue in the snapshot of its claim statement and fills the free
slots. What the locks on the queue rows give it: while a transaction holds the lock of a queue, no
other transaction changes the row of the queue or commits a claim of one of its jobs, so the number
of leased jobs of the queue can only fall.
-/

namespace PgRelay

open RowStore

variable {s s' : State} {t : TxnId} {T : Txn} {q : QueueName}

/-- The jobs of a queue among those a claim has picked. -/
def pickedIn (jobs : JobTable) (picked : List JobId) (q : QueueName) : ℕ :=
  picked.countP fun id => (jobs.get id).any fun entry => decide (entry.row.queueName = q)

/-- The slots of a queue that a claim may still fill. -/
def openSlots (active : List ActiveQueue) (q : QueueName) : ℕ :=
  (active.map fun a => if a.name = q then a.slots else 0).sum

/-- The leased jobs the claim statement has counted are all there can be. -/
def Counted (s : State) (T : Txn) (snapshot : JobTable) (q : QueueName) : Prop :=
  leasedCount (T.view s) q ≤ leasedCount snapshot q

/-- Inside the claim statement: a queue from which jobs are taken is locked and counted, and the
jobs taken and still to be taken fit into its limit. -/
structure SlotsOk (s : State) (t : TxnId) (T : Txn) (snapshot : JobTable) (todo : List QueueName)
    (active : List ActiveQueue) (picked : List JobId) : Prop where
  counted : ∀ q ∈ todo, s.queueLocks q = some t → Counted s T snapshot q
  nodup : todo.Nodup
  taken : ∀ q, 0 < pickedIn (T.view s) picked q + openSlots active q → q ∉ todo ∧
    s.queueLocks q = some t ∧ Counted s T snapshot q ∧ ∃ row, s.queues.get q = some row ∧
      (pickedIn (T.view s) picked q + openSlots active q + leasedCount snapshot q : ℕ) ≤ row.concurrencyLimit

/-- The leased jobs of a queue, those of the transaction included, are within its limit. -/
def WithinLimit (s : State) (T : Txn) (q : QueueName) : Prop :=
  ∃ row, s.queues.get q = some row ∧ leasedCount (T.view s) q ≤ row.concurrencyLimit

/-- What a claim relies on at the point it has reached. -/
def ClaimPc.QueuesOk (s : State) (t : TxnId) (T : Txn) : ClaimPc → Prop
  | .claiming snapshot todo active picked => SlotsOk s t T snapshot todo active picked
  | .finished rows => ∀ row ∈ rows, s.queueLocks row.queueName = some t ∧ WithinLimit s T row.queueName
  | _ => True

/-- An open transaction writes queues and claims jobs only under the locks of the queues. -/
structure QueueOk (s : State) (t : TxnId) (T : Txn) : Prop where
  writes : ∀ w ∈ T.queueWrites, s.queueLocks w.name = some t
  claims : ∀ c ∈ T.changes, ∀ x leaseSeconds, c.event.event = .claimed x leaseSeconds →
    s.queueLocks x.job.queueName = some t
  claim : ∀ args pc, T.task = .claimLoop args pc → T.queueWrites = [] ∧ pc.QueuesOk s t T

/-- What a transaction keeps while the others move: its queue locks, the rows under them, and that
no job of these queues is leased that was not leased before. -/
structure QueueFrame (s s' : State) (t : TxnId) (T : Txn) : Prop where
  locks : ∀ q, s'.queueLocks q = some t ↔ s.queueLocks q = some t
  rows : ∀ q, s.queueLocks q = some t → s'.queues.get q = s.queues.get q
  leased : ∀ q, s.queueLocks q = some t → leasedCount (T.view s') q ≤ leasedCount (T.view s) q

/-- What a claim has counted under a queue lock stays counted. -/
theorem QueueFrame.counted (hf : QueueFrame s s' t T) {snapshot : JobTable}
    (hq : s.queueLocks q = some t) (h : Counted s T snapshot q) : Counted s' T snapshot q :=
  (hf.leased q hq).trans h

/-- A claim stays in order while the others move. -/
theorem SlotsOk.frame {snapshot : JobTable} {todo : List QueueName} {active : List ActiveQueue}
    {picked : List JobId} (h : SlotsOk s t T snapshot todo active picked) (hf : QueueFrame s s' t T)
    (hview : ∀ id ∈ picked, (T.view s').get id = (T.view s).get id) :
    SlotsOk s' t T snapshot todo active picked := by
  have hpicked (q : QueueName) : pickedIn (T.view s') picked q = pickedIn (T.view s) picked q :=
    List.countP_congr fun id hid => by rw [hview id hid]
  refine ⟨fun q hq hlock => ?_, h.nodup, fun q hpos => ?_⟩
  · have hlock' := (hf.locks q).mp hlock
    exact hf.counted hlock' (h.counted q hq hlock')
  · rw [hpicked] at hpos ⊢
    obtain ⟨htodo, hlock, hcounted, row, hrow, hle⟩ := h.taken q hpos
    exact ⟨htodo, (hf.locks q).mpr hlock, hf.counted hlock hcounted, row, (hf.rows q hlock).trans hrow, hle⟩

/-- An open transaction stays in order while the others move. -/
theorem QueueOk.frame (h : QueueOk s t T) (hT : TxnOk s t T) (hf : QueueFrame s s' t T)
    (hview : ∀ id, s.jobLocks id = some t → (T.view s').get id = (T.view s).get id) :
    QueueOk s' t T := by
  refine ⟨fun w hw => (hf.locks _).mpr (h.writes w hw),
    fun c hc x leaseSeconds hevent => (hf.locks _).mpr (h.claims c hc x leaseSeconds hevent),
    fun args pc hpc => ?_⟩
  obtain ⟨hwrites, hqueues⟩ := h.claim args pc hpc
  refine ⟨hwrites, ?_⟩
  cases pc with
  | claiming snapshot todo active picked =>
    have htask := hT.task
    simp only [TaskOk, hpc] at htask
    exact SlotsOk.frame hqueues hf fun id hid => hview id (htask id hid).1
  | finished rows =>
    intro row hrow
    obtain ⟨hlock, qrow, hget, hle⟩ := hqueues row hrow
    have hcount : (leasedCount (T.view s') row.queueName : Int) ≤ leasedCount (T.view s) row.queueName :=
      Int.ofNat_le.mpr (hf.leased _ hlock)
    exact ⟨(hf.locks _).mpr hlock, qrow, (hf.rows _ hlock).trans hget, hcount.trans hle⟩
  | _ => trivial

/-! ## The commits of others -/

/-- No operation moves a job to another queue, and only a claim leases a job. -/
theorem JobActs.leased {op : LogEntry} {before after : JobEntry}
    (hacts : JobActs op (some before) (some after))
    (hleased : after.row.status = .leased) : after.row.queueName = before.row.queueName ∧
      (before.row.status = .leased ∨
        ∃ x leaseSeconds, op.event = .claimed x leaseSeconds ∧ x.job.queueName = after.row.queueName) := by
  cases hacts with
  | @claimed t now x leaseSeconds _ hclaim hx =>
    exact ⟨by rw [hx]; rfl, Or.inr ⟨x, leaseSeconds, rfl, rfl⟩⟩
  | extended howned => exact ⟨rfl, Or.inl howned.2⟩
  | returned howned | completed howned => cases hleased
  | @failed t now x args _ howned => exact ⟨rfl, Or.inl howned.2⟩
  | recovered hexpired => exact ⟨rfl, Or.inl hexpired.1⟩
  | cancelled hpending => cases hleased
  | unlinked => exact ⟨rfl, Or.inl hleased⟩

/-- Operations without a claim of a queue lease no further job of it. -/
theorem Evolves.leased {events : List LogEntry} {start row : Option JobEntry}
    (h : jobDynamics.Evolves events start row)
    (hclaim : ∀ op ∈ events, ∀ x leaseSeconds, op.event = .claimed x leaseSeconds → x.job.queueName ≠ q)
    {after : JobEntry} (hrow : row = some after) (hleased : after.row.status = .leased)
    (hq : after.row.queueName = q) :
    ∃ before, start = some before ∧ before.row.status = .leased ∧ before.row.queueName = q := by
  induction h generalizing after with
  | nil row => exact ⟨after, hrow, hleased, hq⟩
  | @snoc events op start middle last _ hacts ih =>
    subst hrow
    cases middle with
    | none =>
      cases hacts
      cases hleased
    | some middle =>
      obtain ⟨hname, hbefore | ⟨x, leaseSeconds, hevent, hx⟩⟩ := hacts.leased hleased
      · exact ih (fun op' hop' => hclaim op' (List.mem_append_left _ hop')) rfl hbefore (hname.symm.trans hq)
      · have hop : op ∈ events ++ [op] := List.mem_append_right _ (List.mem_singleton_self _)
        exact absurd (hx.trans hq) (hclaim op hop x leaseSeconds hevent)

/-- A count of leased jobs does not grow if every leased job was leased before. -/
theorem leasedCount_le {jobs jobs' : JobTable}
    (h : ∀ id after, jobs'.get id = some after → after.row.status = .leased → after.row.queueName = q →
      ∃ before, jobs.get id = some before ∧ before.row.status = .leased ∧ before.row.queueName = q) :
    leasedCount jobs' q ≤ leasedCount jobs q := by
  apply Table.count_le_count
  intro entry hentry hcounted
  obtain ⟨hleased, hq⟩ := of_decide_eq_true hcounted
  obtain ⟨before, hget, hbefore⟩ := h entry.id entry (Table.get_of_mem hentry) hleased hq
  exact ⟨before, hget, decide_eq_true hbefore⟩

/-- While a transaction holds the lock of a queue, the commit of another leases no job of it. -/
theorem QueueOk.leased_commit {u : TxnId} {U : Txn} (hT : TxnOk s t T)
    (hT' : TxnOk (s.commit u U) t T)
    (hU : TxnOk s u U) (hqueue : QueueOk s u U) (hne : t ≠ u) (hlock : s.queueLocks q = some t) :
    leasedCount (T.view (s.commit u U)) q ≤ leasedCount (T.view s) q := by
  have hframe := hU.frame_commit hne
  apply leasedCount_le
  intro id after hafter hleased hq
  by_cases hheld : s.jobLocks id = some t
  · rw [hT.view_congr hframe (hframe.rows id hheld)] at hafter
    exact ⟨after, hafter, hleased, hq⟩
  · rw [hT'.view_of_unlocked fun hlock' => hheld (releaseLocks_eq_some.mp hlock').1] at hafter
    rw [hT.view_of_unlocked hheld]
    refine Evolves.leased (hU.consistent.evolves id) (fun op hop x leaseSeconds hevent hx => ?_) hafter hleased hq
    obtain ⟨c, hc, rfl⟩ := List.mem_map.mp (List.mem_filter.mp hop).1
    have hheld' := hqueue.claims c hc x leaseSeconds hevent
    rw [hx, hlock] at hheld'
    exact hne (Option.some.inj hheld')

/-- The others keep what they rely on through a commit. -/
theorem QueueOk.frame_commit {u : TxnId} {U : Txn} (hT : TxnOk s t T) (hT' : TxnOk (s.commit u U) t T)
    (hU : TxnOk s u U) (hqueue : QueueOk s u U) (hne : t ≠ u) : QueueFrame s (s.commit u U) t T where
  locks q := releaseLocks_eq_some.trans (and_iff_left hne)
  rows q hlock := by
    refine Table.get_foldl_put fun w hw hname => hne ?_
    have hheld := hqueue.writes w hw
    rw [show w.name = q from hname, hlock] at hheld
    exact Option.some.inj hheld
  leased q hlock := leased_commit hT hT' hU hqueue hne hlock

/-- A move that leaves the tables and the transaction's queue locks alone. -/
theorem queueFrame_of_eq (hlocks : ∀ q, s'.queueLocks q = some t ↔ s.queueLocks q = some t)
    (hqueues : s'.queues = s.queues) (hjobs : s'.jobs = s.jobs) : QueueFrame s s' t T where
  locks := hlocks
  rows q _ := by rw [hqueues]
  leased q _ := by rw [Txn.view, hjobs]; rfl

/-! ## The steps of a transaction -/

variable {effect : Effect}

/-- What a step of a transaction leaves to the transaction itself: its queue writes and claims are
under the locks it has then. -/
structure QueueEffectOk (s : State) (t : TxnId) (T : Txn) (effect : Effect) : Prop where
  writes : ∀ w ∈ effect.queueWrites, effect.queueLock = some w.name
  claims : ∀ c ∈ effect.changes, ∀ x leaseSeconds, c.event.event = .claimed x leaseSeconds →
    s.queueLocks x.job.queueName = some t
  claim : ∀ args pc, effect.task = .claimLoop args pc →
    effect.queueWrites = [] ∧ T.queueWrites = [] ∧ pc.QueuesOk (s.perform t T effect) t (T.after effect)

/-- A step in order keeps its transaction in order. -/
theorem QueueOk.perform (h : QueueOk s t T) (he : QueueEffectOk s t T effect) :
    QueueOk (s.perform t T effect) t (T.after effect) := by
  refine ⟨fun w hw => ?_, fun c hc x leaseSeconds hevent => ?_, fun args pc hpc => ?_⟩
  · change takeLock s.queueLocks t effect.queueLock w.name = some t
    rcases List.mem_append.mp hw with hold | hnew
    · exact takeLock_of_held _ (h.writes w hold)
    · rw [he.writes w hnew]
      exact takeLock_self _ _ _
  · change takeLock s.queueLocks t effect.queueLock _ = some t
    rcases List.mem_append.mp hc with hold | hnew
    · exact takeLock_of_held _ (h.claims c hold x leaseSeconds hevent)
    · exact takeLock_of_held _ (he.claims c hnew x leaseSeconds hevent)
  · obtain ⟨hnew, hold, hqueues⟩ := he.claim args pc hpc
    exact ⟨by simp [Txn.after, hnew, hold], hqueues⟩

/-- A step of a claim round. -/
theorem queueEffectOk_of_claim {args : ClaimArgs} {pc : ClaimPc}
    (htask : effect.task = .claimLoop args pc)
    (hwrites : effect.queueWrites = []) (hold : T.queueWrites = [])
    (hclaims : ∀ c ∈ effect.changes, ∀ x leaseSeconds, c.event.event = .claimed x leaseSeconds →
      s.queueLocks x.job.queueName = some t)
    (hqueues : pc.QueuesOk (s.perform t T effect) t (T.after effect)) :
    QueueEffectOk s t T effect where
  writes w hw := by simp [hwrites] at hw
  claims := hclaims
  claim args' pc' hpc := by
    obtain ⟨rfl, rfl⟩ : args = args' ∧ pc = pc' := by simpa using htask.symm.trans hpc
    exact ⟨hwrites, hold, hqueues⟩

/-- A step that writes no job leaves the view as it is. -/
theorem view_perform_of_nil (hchanges : effect.changes = []) :
    (T.after effect).view (s.perform t T effect) = T.view s := by
  rw [view_perform, hchanges]
  rfl

/-- A step inside the claim statement that takes no more than is open. -/
theorem SlotsOk.mono {snapshot : JobTable} {todo : List QueueName} {active active' : List ActiveQueue}
    {picked picked' : List JobId} (h : SlotsOk s t T snapshot todo active picked)
    (hchanges : effect.changes = []) (hlock : effect.queueLock = none)
    (hle : ∀ q, pickedIn (T.view s) picked' q + openSlots active' q ≤
      pickedIn (T.view s) picked q + openSlots active q) :
    SlotsOk (s.perform t T effect) t (T.after effect) snapshot todo active' picked' := by
  have hview := view_perform_of_nil (s := s) (t := t) (T := T) hchanges
  have hlocks : (s.perform t T effect).queueLocks = s.queueLocks := by simp [State.perform, hlock, takeLock]
  refine ⟨?_, h.nodup, fun q hpos => ?_⟩
  · simpa only [Counted, hview, hlocks] using h.counted
  · rw [hview] at hpos ⊢
    obtain ⟨htodo, hheld, hcounted, row, hrow, hlimit⟩ := h.taken q (hpos.trans_le (hle q))
    refine ⟨htodo, hlocks ▸ hheld, by simpa only [Counted, hview] using hcounted, row, hrow, ?_⟩
    exact le_trans (Int.ofNat_le.mpr (Nat.add_le_add_right (hle q) _)) hlimit

/-- A step inside the claim statement that deals with the next queue. -/
theorem SlotsOk.activate {snapshot : JobTable} {todo : List QueueName}
    {active active' : List ActiveQueue}
    {picked : List JobId} (h : SlotsOk s t T snapshot (q :: todo) active picked)
    (hchanges : effect.changes = []) (hlock : effect.queueLock = none ∨ effect.queueLock = some q)
    (hother : ∀ q', q' ≠ q → openSlots active' q' = openSlots active q')
    (hq : 0 < openSlots active' q → effect.queueLock = some q ∧ Counted s T snapshot q ∧
      ∃ row, s.queues.get q = some row ∧ (openSlots active' q + leasedCount snapshot q : ℕ) ≤ row.concurrencyLimit) :
    SlotsOk (s.perform t T effect) t (T.after effect) snapshot todo active' picked := by
  have hview := view_perform_of_nil (s := s) (t := t) (T := T) hchanges
  obtain ⟨hfresh, hnodup⟩ := List.nodup_cons.mp h.nodup
  have hlocks (q' : QueueName) (hne : q' ≠ q) : (s.perform t T effect).queueLocks q' = s.queueLocks q' := by
    rcases hlock with hlock | hlock <;> simp [State.perform, hlock, takeLock, hne]
  have hnone : pickedIn (T.view s) picked q = 0 := by
    by_contra hpos
    exact (h.taken q (by omega)).1 List.mem_cons_self
  refine ⟨fun q' hq' hheld => ?_, hnodup, fun q' hpos => ?_⟩
  · have hne : q' ≠ q := fun heq => hfresh (heq ▸ hq')
    rw [hlocks q' hne] at hheld
    simpa only [Counted, hview] using h.counted q' (List.mem_cons_of_mem _ hq') hheld
  · rw [hview] at hpos ⊢
    by_cases hne : q' = q
    · subst hne
      rw [hnone, Nat.zero_add] at hpos ⊢
      obtain ⟨htaken, hcounted, row, hrow, hlimit⟩ := hq hpos
      refine ⟨hfresh, ?_, by simpa only [Counted, hview] using hcounted, row, hrow, hlimit⟩
      simpa only [State.perform, htaken] using takeLock_self s.queueLocks t q'
    · rw [hother q' hne] at hpos ⊢
      obtain ⟨htodo, hheld, hcounted, row, hrow, hlimit⟩ := h.taken q' hpos
      refine ⟨fun hmem => htodo (List.mem_cons_of_mem _ hmem), (hlocks q' hne).trans hheld, ?_, row, hrow, hlimit⟩
      simpa only [Counted, hview] using hcounted

end PgRelay
