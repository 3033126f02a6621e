import PgRelay.Locking

/-!
# The registry of workers

A worker process registers when it starts, and begins each round of its claim loop with a heartbeat; if its row
is gone it registers again. Each is a transaction of its own. Rows are never deleted, so the registry lists every
worker that has ever come to the commit of a registration, and tells those that are alive by the age of their
last heartbeat.

A heartbeat is as old as the begin of its transaction. The transactions of one process follow each other, but
those of processes that share an id may overtake each other, and then a heartbeat may set the time back.
-/

namespace PgRelay

open RowStore

/-! ## The statements -/

/-- A row of `pgrelay_worker`. -/
structure PgRelayWorker where
  workerId : WorkerId
  queues : List QueueName
  hostname : String
  startedAt : Timestamp
  lastHeartbeatAt : Timestamp

/-- `pgrelay_worker`. -/
abbrev WorkerTable := Table PgRelayWorker.workerId

/-- The parameters of `register_worker`. -/
structure WorkerArgs where
  workerId : WorkerId
  queues : List QueueName
  hostname : String

/-- What `register_worker` makes of the row of its id: an insert with the column defaults, or the update of
`ON CONFLICT (worker_id) DO UPDATE`. -/
def registerWorker (now : Timestamp) (args : WorkerArgs) : Option PgRelayWorker → PgRelayWorker
  | none => ⟨args.workerId, args.queues, args.hostname, now, now⟩
  | some worker => { worker with queues := args.queues, hostname := args.hostname, lastHeartbeatAt := now }

/-- The update of `heartbeat`. -/
def heartbeat (now : Timestamp) (worker : PgRelayWorker) : PgRelayWorker := { worker with lastHeartbeatAt := now }

/-- `WorkerRow`. -/
structure WorkerRow where
  workerId : WorkerId
  queues : List QueueName
  hostname : String
  startedAt : Timestamp
  lastHeartbeatAt : Timestamp
  alive : Bool

/-- The columns that a query selects, with `last_heartbeat_at > now() - interval '2 minutes' AS alive`. -/
def PgRelayWorker.toRow (now : Timestamp) (worker : PgRelayWorker) : WorkerRow where
  workerId := worker.workerId
  queues := worker.queues
  hostname := worker.hostname
  startedAt := worker.startedAt
  lastHeartbeatAt := worker.lastHeartbeatAt
  alive := decide (now - seconds 120 < worker.lastHeartbeatAt)

/-- `list_workers`. -/
def listWorkers (now : Timestamp) (workers : WorkerTable) : List WorkerRow :=
  (workers.rows.insertionSort fun a b => a.workerId ≤ b.workerId).map (PgRelayWorker.toRow now)

/-! ## The transactions -/

/-- Where a transaction of the registry stands: before the update of `heartbeat`, before the insert of
`register_worker`, or at its commit. -/
inductive RegistryPc
  | updating
  | registering
  | finished (registered : Bool)
  deriving DecidableEq

/-- An open transaction of `_register_worker` or `_heartbeat_worker`, with the row that it has written. -/
structure RegistryTxn where
  now : Timestamp
  args : WorkerArgs
  pc : RegistryPc
  written : Option PgRelayWorker

/-- The committed rows, the open transactions, and the locks that these hold on rows and on ids that they have
inserted. -/
structure Registry where
  clock : Timestamp
  workers : WorkerTable
  txns : TxnId → Option RegistryTxn
  locks : WorkerId → Option TxnId
  nextTxn : TxnId

/-- The migrated table before its first use. -/
def Registry.init (clock : Timestamp) : Registry := ⟨clock, Table.empty, fun _ => none, fun _ => none, 0⟩

/-- One statement of a transaction, if it need not wait. An update that finds no row has nothing to wait for. -/
def RegistryTxn.statement (s : Registry) (t : TxnId) (T : RegistryTxn) : Option RegistryTxn :=
  match T.pc, s.workers.get T.args.workerId with
  | .updating, none => some { T with pc := .registering }
  | .updating, some worker =>
    if Free s.locks T.args.workerId t then
      some { T with pc := .finished false, written := some (heartbeat T.now worker) }
    else none
  | .registering, found =>
    if Free s.locks T.args.workerId t then
      some { T with pc := .finished true, written := some (registerWorker T.now T.args found) }
    else none
  | .finished _, _ => none

/-- Perform a statement. -/
def Registry.perform (s : Registry) (t : TxnId) (T : RegistryTxn) : Registry :=
  { s with
    txns := Function.update s.txns t (some T)
    locks := takeLock s.locks t (T.written.map PgRelayWorker.workerId) }

/-- End a transaction. -/
def Registry.close (s : Registry) (t : TxnId) : Registry :=
  { s with txns := Function.update s.txns t none, locks := releaseLocks s.locks t }

/-- Begin a transaction. -/
def Registry.open (s : Registry) (args : WorkerArgs) (pc : RegistryPc) : Registry :=
  { s with
    txns := Function.update s.txns s.nextTxn (some ⟨s.clock, args, pc, none⟩)
    nextTxn := s.nextTxn + 1 }

/-- The actions of all worker processes. -/
inductive RegistryAction
  | tick (elapsed : ℕ)
  /-- `_register_worker`. -/
  | registerWorker (args : WorkerArgs)
  /-- `_heartbeat_worker`. -/
  | heartbeatWorker (args : WorkerArgs)
  | advance (t : TxnId)
  | commit (t : TxnId)
  | rollback (t : TxnId)

/-- Perform an action, or refuse it while it has to wait or makes no sense. -/
def Registry.step (s : Registry) : RegistryAction → Option Registry
  | .tick elapsed => some { s with clock := s.clock + elapsed }
  | .registerWorker args => some (s.open args .registering)
  | .heartbeatWorker args => some (s.open args .updating)
  | .advance t => (s.txns t).bind fun T => (T.statement s t).map (s.perform t)
  | .commit t => (s.txns t).bind fun T => T.written.map fun worker =>
      { s.close t with workers := s.workers.put worker }
  | .rollback t => (s.txns t).map fun _ => s.close t

/-! ## What has been committed -/

/-- A committed transaction: its time, its process, and whether it has registered the worker. -/
structure RegistryOp where
  now : Timestamp
  args : WorkerArgs
  registered : Bool

/-- What the transaction will have done once it commits. -/
def RegistryTxn.op (T : RegistryTxn) : Option RegistryOp :=
  match T.pc with
  | .finished registered => some ⟨T.now, T.args, registered⟩
  | _ => none

/-- Note down the transactions in the order of their commits. -/
def noteRegistry (ops : List RegistryOp) (s : Registry) (a : RegistryAction) (_ : Registry) : List RegistryOp :=
  match a with
  | .commit t => ops ++ ((s.txns t).bind RegistryTxn.op).toList
  | _ => ops

/-- The committed transactions of a worker. -/
def opsOf (ops : List RegistryOp) (id : WorkerId) : List RegistryOp := ops.filter fun op => op.args.workerId = id

/-- What a committed transaction has made of the row of its worker. -/
def RegistryOp.apply (op : RegistryOp) (found : Option PgRelayWorker) : Option PgRelayWorker :=
  if op.registered then some (registerWorker op.now op.args found) else found.map (heartbeat op.now)

/-- The row of a worker sums up what has been committed for it: it says when the worker was first registered, when
the last transaction began, and what the last registration has told. -/
structure WorkerHistory (ops : List RegistryOp) (worker : PgRelayWorker) : Prop where
  started : ∃ op, ops.head? = some op ∧ op.registered = true ∧ op.now = worker.startedAt
  beat : ops.getLast?.map RegistryOp.now = some worker.lastHeartbeatAt
  told : (ops.filter RegistryOp.registered).getLast?.map (fun op => (op.args.queues, op.args.hostname)) =
    some (worker.queues, worker.hostname)

variable {s s' : Registry} {t : TxnId} {T T' : RegistryTxn} {a : RegistryAction} {ops : List RegistryOp}
  {op : RegistryOp} {id : WorkerId}

/-- The first transaction of a worker that is committed. -/
theorem WorkerHistory.singleton {worker : PgRelayWorker} (h : op.apply none = some worker) :
    WorkerHistory [op] worker := by
  unfold RegistryOp.apply at h
  split_ifs at h with hregistered
  · obtain rfl := Option.some.inj h
    refine ⟨⟨op, rfl, hregistered, rfl⟩, rfl, ?_⟩
    rw [List.filter_cons_of_pos hregistered]
    rfl
  · cases h

/-- A further transaction of a worker that is committed. -/
theorem WorkerHistory.snoc {before after : PgRelayWorker} (h : WorkerHistory ops before)
    (hop : op.apply (some before) = some after) : WorkerHistory (ops ++ [op]) after := by
  obtain ⟨first, hfirst, hregistered, hnow⟩ := h.started
  have hstarted : before.startedAt = after.startedAt → ∃ op', (ops ++ [op]).head? = some op' ∧ op'.registered = true ∧
      op'.now = after.startedAt := fun heq =>
    ⟨first, by rw [List.head?_append, hfirst, Option.some_or], hregistered, hnow.trans heq⟩
  unfold RegistryOp.apply at hop
  split_ifs at hop with hagain
  · obtain rfl := Option.some.inj hop
    refine ⟨hstarted rfl, by rw [List.getLast?_concat]; rfl, ?_⟩
    rw [List.filter_append, List.filter_cons_of_pos hagain, List.filter_nil, List.getLast?_concat]
    rfl
  · obtain rfl := Option.some.inj hop
    refine ⟨hstarted rfl, by rw [List.getLast?_concat]; rfl, ?_⟩
    rw [List.filter_append, List.filter_cons_of_neg hagain, List.filter_nil, List.append_nil]
    exact h.told

/-! ## Steps -/

/-- What an action does. -/
theorem Registry.step_cases (h : s.step a = some s') :
    (∃ elapsed, a = .tick elapsed ∧ s' = { s with clock := s.clock + elapsed }) ∨
      (∃ args pc, (a = .registerWorker args ∧ pc = .registering ∨ a = .heartbeatWorker args ∧ pc = .updating) ∧
        s' = s.open args pc) ∨
      (∃ t T T', a = .advance t ∧ s.txns t = some T ∧ T.statement s t = some T' ∧ s' = s.perform t T') ∨
      (∃ t T worker, a = .commit t ∧ s.txns t = some T ∧ T.written = some worker ∧
        s' = { s.close t with workers := s.workers.put worker }) ∨
      ∃ t T, a = .rollback t ∧ s.txns t = some T ∧ s' = s.close t := by
  cases a with
  | tick elapsed =>
    obtain rfl := Option.some.inj h
    exact .inl ⟨elapsed, rfl, rfl⟩
  | registerWorker args =>
    obtain rfl := Option.some.inj h
    exact .inr (.inl ⟨args, .registering, .inl ⟨rfl, rfl⟩, rfl⟩)
  | heartbeatWorker args =>
    obtain rfl := Option.some.inj h
    exact .inr (.inl ⟨args, .updating, .inr ⟨rfl, rfl⟩, rfl⟩)
  | advance t =>
    obtain ⟨T, hT, hs⟩ := Option.bind_eq_some_iff.mp h
    obtain ⟨T', hT', rfl⟩ := Option.map_eq_some_iff.mp hs
    exact .inr (.inr (.inl ⟨t, T, T', rfl, hT, hT', rfl⟩))
  | commit t =>
    obtain ⟨T, hT, hs⟩ := Option.bind_eq_some_iff.mp h
    obtain ⟨worker, hworker, rfl⟩ := Option.map_eq_some_iff.mp hs
    exact .inr (.inr (.inr (.inl ⟨t, T, worker, rfl, hT, hworker, rfl⟩)))
  | rollback t =>
    obtain ⟨T, hT, rfl⟩ := Option.map_eq_some_iff.mp h
    exact .inr (.inr (.inr (.inr ⟨t, T, rfl, hT, rfl⟩)))

/-- What a statement does: it finds that the row of the worker is missing, or it writes the newest version of the
row, whose lock it takes. -/
theorem RegistryTxn.statement_cases (h : T.statement s t = some T') :
    T'.now = T.now ∧ T'.args = T.args ∧ T.op = none ∧ (T'.op = none ∧ T'.written = T.written ∨
      Free s.locks T.args.workerId t ∧ ∃ op worker, T'.op = some op ∧ T'.written = some worker ∧
        op.now = T.now ∧ op.args = T.args ∧ worker.workerId = T.args.workerId ∧
        op.apply (s.workers.get T.args.workerId) = some worker) := by
  unfold RegistryTxn.statement at h
  split at h
  · rename_i hpc hget
    obtain rfl := Option.some.inj h
    exact ⟨rfl, rfl, by simp [RegistryTxn.op, hpc], .inl ⟨rfl, rfl⟩⟩
  · rename_i worker hpc hget
    split_ifs at h with hfree
    obtain rfl := Option.some.inj h
    refine ⟨rfl, rfl, by simp [RegistryTxn.op, hpc], .inr ⟨hfree, ⟨T.now, T.args, false⟩, heartbeat T.now worker, rfl,
      rfl, rfl, rfl, ?_, ?_⟩⟩
    · have hid : worker.workerId = T.args.workerId := Table.key_of_get hget
      exact hid
    · rw [hget]
      rfl
  · rename_i hpc
    split_ifs at h with hfree
    obtain rfl := Option.some.inj h
    refine ⟨rfl, rfl, by simp [RegistryTxn.op, hpc], .inr ⟨hfree, ⟨T.now, T.args, true⟩, _, rfl,
      rfl, rfl, rfl, ?_, rfl⟩⟩
    cases hget : s.workers.get T.args.workerId with
    | none => rfl
    | some worker =>
      have hid : worker.workerId = T.args.workerId := Table.key_of_get hget
      exact hid
  · cases h

/-- What is open after a begin. -/
theorem Registry.txns_open {args : WorkerArgs} {pc : RegistryPc} (h : (s.open args pc).txns t = some T) :
    t = s.nextTxn ∧ T = ⟨s.clock, args, pc, none⟩ ∨ t ≠ s.nextTxn ∧ s.txns t = some T := by
  by_cases ht : t = s.nextTxn
  · exact .inl ⟨ht, by simpa [Registry.open, ht] using h.symm⟩
  · exact .inr ⟨ht, by simpa [Registry.open, ht] using h⟩

/-- What is open after a statement. -/
theorem Registry.txns_perform {u : TxnId} {U : RegistryTxn} (h : (s.perform t T).txns u = some U) :
    u = t ∧ U = T ∨ u ≠ t ∧ s.txns u = some U := by
  by_cases hu : u = t
  · exact .inl ⟨hu, by simpa [Registry.perform, hu] using h.symm⟩
  · exact .inr ⟨hu, by simpa [Registry.perform, hu] using h⟩

/-- What is open after the end of a transaction. -/
theorem Registry.txns_close {u : TxnId} {U : RegistryTxn} (h : (s.close t).txns u = some U) :
    u ≠ t ∧ s.txns u = some U := by
  by_cases hu : u = t
  · simp [Registry.close, hu] at h
  · exact ⟨hu, by simpa [Registry.close, hu] using h⟩

/-- A begin commits nothing. -/
theorem noteRegistry_open {args : WorkerArgs} {pc : RegistryPc}
    (ha : a = .registerWorker args ∧ pc = .registering ∨ a = .heartbeatWorker args ∧ pc = .updating) :
    noteRegistry ops s a s' = ops := by
  rcases ha with ⟨rfl, -⟩ | ⟨rfl, -⟩ <;> rfl

/-! ## Whole runs -/

/-- An open transaction has written nothing yet, or it holds the lock on its row and has written what its commit
will make of the newest version. -/
structure RegistryTxnOk (s : Registry) (t : TxnId) (T : RegistryTxn) : Prop where
  idle : T.op = none → T.written = none
  done : ∀ op, T.op = some op → s.locks T.args.workerId = some t ∧ op.now = T.now ∧ op.args = T.args ∧
    ∃ worker, T.written = some worker ∧ worker.workerId = T.args.workerId ∧
      op.apply (s.workers.get T.args.workerId) = some worker

/-- The committed rows sum up the committed transactions. -/
structure RegistryInv (s : Registry) (ops : List RegistryOp) : Prop where
  missing : ∀ id, s.workers.get id = none → opsOf ops id = []
  row : ∀ id worker, s.workers.get id = some worker → WorkerHistory (opsOf ops id) worker
  txns : ∀ t T, s.txns t = some T → RegistryTxnOk s t T

/-- Without rows nothing has been committed. -/
theorem registryInv_init (clock : Timestamp) : RegistryInv (.init clock) [] where
  missing _ _ := rfl
  row id worker h := by cases h
  txns t T h := by cases h

/-- The others keep their rows and locks. -/
theorem RegistryTxnOk.frame (h : RegistryTxnOk s t T)
    (hlock : s.locks T.args.workerId = some t → s'.locks T.args.workerId = some t ∧
      s'.workers.get T.args.workerId = s.workers.get T.args.workerId) : RegistryTxnOk s' t T := by
  refine ⟨h.idle, fun op hop => ?_⟩
  obtain ⟨hheld, hnow, hargs, hwritten⟩ := h.done op hop
  obtain ⟨hheld', hget⟩ := hlock hheld
  rw [hget]
  exact ⟨hheld', hnow, hargs, hwritten⟩

/-- A statement keeps the rows, and takes the lock on the row that it writes. -/
theorem RegistryInv.perform (h : RegistryInv s ops) (hT : s.txns t = some T) (hstatement : T.statement s t = some T') :
    RegistryInv (s.perform t T') ops := by
  obtain ⟨hnow, hargs, hidle, hcases⟩ := RegistryTxn.statement_cases hstatement
  have hwritten := (h.txns t T hT).idle hidle
  have hfree (id : WorkerId) (hid : T'.written.map PgRelayWorker.workerId = some id) : Free s.locks id t := by
    rcases hcases with ⟨-, hsame⟩ | ⟨hfree, op, worker, -, hworker, -, -, hkey, -⟩
    · rw [hsame, hwritten] at hid
      cases hid
    · rw [hworker] at hid
      obtain rfl := Option.some.inj hid
      rwa [hkey]
  refine ⟨h.missing, h.row, fun u U hU => ?_⟩
  rcases Registry.txns_perform hU with ⟨rfl, rfl⟩ | ⟨hu, hU'⟩
  · refine ⟨fun hnone => ?_, fun op hop => ?_⟩
    · rcases hcases with ⟨-, hsame⟩ | ⟨-, op, worker, hop, -⟩
      · rw [hsame, hwritten]
      · cases hnone.symm.trans hop
    · rcases hcases with ⟨hnone, -⟩ | ⟨-, op', worker, hop', hworker, hopnow, hopargs, hkey, happly⟩
      · cases hnone.symm.trans hop
      · obtain rfl := Option.some.inj (hop.symm.trans hop')
        rw [hnow, hargs]
        refine ⟨?_, hopnow, hopargs, worker, hworker, hkey, happly⟩
        change takeLock s.locks u (U.written.map PgRelayWorker.workerId) T.args.workerId = some u
        rw [hworker, Option.map_some, hkey, takeLock_self]
  · exact (h.txns u U hU').frame fun hheld => ⟨(takeLock_of_other hfree hu _).mpr hheld, rfl⟩

/-- The end of a transaction keeps them. -/
theorem RegistryInv.close (h : RegistryInv s ops) (t : TxnId) : RegistryInv (s.close t) ops := by
  refine ⟨h.missing, h.row, fun u U hU => ?_⟩
  obtain ⟨hu, hU'⟩ := Registry.txns_close hU
  exact (h.txns u U hU').frame fun hheld => ⟨releaseLocks_eq_some.mpr ⟨hheld, hu⟩, rfl⟩

/-- A further transaction of a worker is its last one. -/
theorem opsOf_concat_self (h : op.args.workerId = id) : opsOf (ops ++ [op]) id = opsOf ops id ++ [op] := by
  rw [opsOf, opsOf, List.filter_append, List.filter_cons_of_pos (by simpa using h), List.filter_nil]

/-- It is none of another worker. -/
theorem opsOf_concat_of_ne (h : op.args.workerId ≠ id) : opsOf (ops ++ [op]) id = opsOf ops id := by
  rw [opsOf, opsOf, List.filter_append, List.filter_cons_of_neg (by simpa using h), List.filter_nil, List.append_nil]

/-- A commit makes the row of its worker the sum of one more transaction. -/
theorem RegistryInv.commit (h : RegistryInv s ops) (hT : s.txns t = some T) {worker : PgRelayWorker}
    (hworker : T.written = some worker) : ∃ op, T.op = some op ∧
      RegistryInv { s.close t with workers := s.workers.put worker } (ops ++ [op]) := by
  have hok := h.txns t T hT
  cases hop : T.op with
  | none => cases (hok.idle hop).symm.trans hworker
  | some op =>
    obtain ⟨hheld, -, hargs, worker', hworker', hkey, happly⟩ := hok.done op hop
    obtain rfl := Option.some.inj (hworker.symm.trans hworker')
    have hid : op.args.workerId = worker.workerId := by rw [hargs, hkey]
    refine ⟨op, rfl, fun id hnone => ?_, fun id row hrow => ?_, fun u U hU => ?_⟩
    · rw [Table.get_put] at hnone
      split_ifs at hnone with heq
      rw [opsOf_concat_of_ne (by rwa [hid]), h.missing id hnone]
    · rw [Table.get_put] at hrow
      split_ifs at hrow with heq
      · obtain rfl := Option.some.inj hrow
        subst heq
        rw [opsOf_concat_self hid]
        rw [← hkey] at happly
        cases hget : s.workers.get worker.workerId with
        | none =>
          rw [h.missing _ hget]
          exact .singleton (hget ▸ happly)
        | some before => exact (h.row _ before hget).snoc (hget ▸ happly)
      · rw [opsOf_concat_of_ne (by rwa [hid])]
        exact h.row id row hrow
    · obtain ⟨hu, hU'⟩ := Registry.txns_close hU
      refine (h.txns u U hU').frame fun hlock => ⟨releaseLocks_eq_some.mpr ⟨hlock, hu⟩, ?_⟩
      have hother : worker.workerId ≠ U.args.workerId := by
        rw [hkey]
        intro heq
        rw [heq] at hheld
        exact hu (Option.some.inj (hlock.symm.trans hheld))
      rw [Table.get_put, if_neg hother]

/-- What is noted of a commit. -/
theorem noteRegistry_commit (hT : s.txns t = some T) (hop : T.op = some op) :
    noteRegistry ops s (.commit t) s' = ops ++ [op] := by
  rw [noteRegistry, hT, Option.bind_some, hop]
  rfl

/-- Every action keeps the rows the sums of the committed transactions. -/
theorem RegistryInv.step (h : RegistryInv s ops) (hs : s.step a = some s') :
    RegistryInv s' (noteRegistry ops s a s') := by
  rcases Registry.step_cases hs with ⟨elapsed, rfl, rfl⟩ | ⟨args, pc, ha, rfl⟩ | ⟨t, T, T', rfl, hT, hstatement, rfl⟩ |
    ⟨t, T, worker, rfl, hT, hworker, rfl⟩ | ⟨t, T, rfl, hT, rfl⟩
  · exact ⟨h.missing, h.row, fun t T hT => (h.txns t T hT).frame fun hlock => ⟨hlock, rfl⟩⟩
  · rw [noteRegistry_open ha]
    refine ⟨h.missing, h.row, fun t T hT => ?_⟩
    rcases Registry.txns_open hT with ⟨-, rfl⟩ | ⟨-, hT'⟩
    · have hidle : (⟨s.clock, args, pc, none⟩ : RegistryTxn).op = none := by
        rcases ha with ⟨-, rfl⟩ | ⟨-, rfl⟩ <;> rfl
      refine ⟨fun _ => rfl, fun op hop => ?_⟩
      cases hidle.symm.trans hop
    · exact (h.txns t T hT').frame fun hlock => ⟨hlock, rfl⟩
  · exact h.perform hT hstatement
  · obtain ⟨op, hop, hinv⟩ := h.commit hT hworker
    rwa [noteRegistry_commit hT hop]
  · exact h.close t

/-! ## One process for each id -/

/-- A transaction is begun only while no other one of the same worker is open, as in a process with an id of its
own. -/
def ownIds (s : Registry) : RegistryAction → Prop
  | .registerWorker args | .heartbeatWorker args => ∀ t T, s.txns t = some T → T.args.workerId ≠ args.workerId
  | _ => True

/-- The transactions of a worker follow each other in time. -/
structure InOrder (s : Registry) (ops : List RegistryOp) : Prop where
  past : ∀ op ∈ ops, op.now ≤ s.clock
  begun : ∀ t T, s.txns t = some T → T.now ≤ s.clock
  alone : ∀ t T t' T', s.txns t = some T → s.txns t' = some T' → T.args.workerId = T'.args.workerId → t = t'
  after : ∀ t T, s.txns t = some T → ∀ op ∈ opsOf ops T.args.workerId, op.now ≤ T.now
  sorted : ∀ id, (opsOf ops id).Pairwise fun op op' => op.now ≤ op'.now

/-- Nothing is out of order at the beginning. -/
theorem inOrder_init (clock : Timestamp) : InOrder (.init clock) [] where
  past op h := by cases h
  begun t T h := by cases h
  alone t T t' T' h := by cases h
  after t T h := by cases h
  sorted id := .nil

/-- Less is open, and what is open has not changed its worker and its time. -/
theorem InOrder.mono (h : InOrder s ops) (hclock : s'.clock = s.clock)
    (htxns : ∀ t T', s'.txns t = some T' → ∃ T, s.txns t = some T ∧ T'.now = T.now ∧ T'.args = T.args) :
    InOrder s' ops := by
  refine ⟨fun op hop => hclock ▸ h.past op hop, fun t T' hT' => ?_, fun t T' u U' hT' hU' hid => ?_,
    fun t T' hT' op hop => ?_, h.sorted⟩
  · obtain ⟨T, hT, hnow, -⟩ := htxns t T' hT'
    rw [hclock, hnow]
    exact h.begun t T hT
  · obtain ⟨T, hT, -, hargs⟩ := htxns t T' hT'
    obtain ⟨U, hU, -, hargs'⟩ := htxns u U' hU'
    rw [hargs, hargs'] at hid
    exact h.alone t T u U hT hU hid
  · obtain ⟨T, hT, hnow, hargs⟩ := htxns t T' hT'
    rw [hargs] at hop
    rw [hnow]
    exact h.after t T hT op hop

/-- A commit keeps the order. -/
theorem InOrder.commit (h : InOrder s ops) (hT : s.txns t = some T) (hnow : op.now = T.now) (hargs : op.args = T.args)
    (workers : WorkerTable) : InOrder { s.close t with workers := workers } (ops ++ [op]) := by
  have hclosed : InOrder { s.close t with workers := workers } ops :=
    h.mono rfl fun u U hU => ⟨U, (Registry.txns_close hU).2, rfl, rfl⟩
  refine ⟨fun op' hop' => ?_, hclosed.begun, hclosed.alone, fun u U hU op' hop' => ?_, fun id => ?_⟩
  · rcases List.mem_append.mp hop' with hold | hnew
    · exact h.past op' hold
    · rw [List.mem_singleton.mp hnew, hnow]
      exact h.begun t T hT
  · obtain ⟨hu, hU'⟩ := Registry.txns_close hU
    have hother : op.args.workerId ≠ U.args.workerId := fun hid =>
      hu (h.alone t T u U hT hU' (hargs ▸ hid)).symm
    rw [opsOf_concat_of_ne hother] at hop'
    exact h.after u U hU' op' hop'
  · by_cases hid : op.args.workerId = id
    · rw [opsOf_concat_self hid, List.pairwise_append]
      refine ⟨h.sorted id, List.pairwise_singleton _ _, fun op' hop' last hlast => ?_⟩
      rw [List.mem_singleton.mp hlast, hnow]
      rw [← hid, hargs] at hop'
      exact h.after t T hT op' hop'
    · rw [opsOf_concat_of_ne hid]
      exact h.sorted id

/-- Every action of processes with ids of their own keeps the order. -/
theorem InOrder.step (h : InOrder s ops) (hinv : RegistryInv s ops) (hown : ownIds s a) (hs : s.step a = some s') :
    InOrder s' (noteRegistry ops s a s') := by
  rcases Registry.step_cases hs with ⟨elapsed, rfl, rfl⟩ | ⟨args, pc, ha, rfl⟩ | ⟨t, T, T', rfl, hT, hstatement, rfl⟩ |
    ⟨t, T, worker, rfl, hT, hworker, rfl⟩ | ⟨t, T, rfl, hT, rfl⟩
  · have hlater : s.clock ≤ s.clock + elapsed := Int.le_add_of_nonneg_right (Int.natCast_nonneg elapsed)
    exact ⟨fun op hop => (h.past op hop).trans hlater, fun t T hT => (h.begun t T hT).trans hlater, h.alone, h.after,
      h.sorted⟩
  · have hfree : ∀ t T, s.txns t = some T → T.args.workerId ≠ args.workerId := by
      rcases ha with ⟨rfl, -⟩ | ⟨rfl, -⟩ <;> exact hown
    rw [noteRegistry_open ha]
    refine ⟨h.past, fun t T hT => ?_, fun t T u U hT hU hid => ?_, fun t T hT op hop => ?_, h.sorted⟩
    · rcases Registry.txns_open hT with ⟨-, rfl⟩ | ⟨-, hT'⟩
      · exact le_rfl
      · exact h.begun t T hT'
    · rcases Registry.txns_open hT with ⟨rfl, rfl⟩ | ⟨-, hT'⟩ <;>
        rcases Registry.txns_open hU with ⟨rfl, rfl⟩ | ⟨-, hU'⟩
      · rfl
      · exact absurd hid.symm (hfree u U hU')
      · exact absurd hid (hfree t T hT')
      · exact h.alone t T u U hT' hU' hid
    · rcases Registry.txns_open hT with ⟨-, rfl⟩ | ⟨-, hT'⟩
      · exact h.past op (List.mem_filter.mp hop).1
      · exact h.after t T hT' op hop
  · obtain ⟨hnow, hargs, -, -⟩ := RegistryTxn.statement_cases hstatement
    refine h.mono rfl fun u U hU => ?_
    rcases Registry.txns_perform hU with ⟨rfl, rfl⟩ | ⟨-, hU'⟩
    · exact ⟨T, hT, hnow, hargs⟩
    · exact ⟨U, hU', rfl, rfl⟩
  · obtain ⟨op, hop, -⟩ := hinv.commit hT hworker
    obtain ⟨-, hnow, hargs, -⟩ := (hinv.txns t T hT).done op hop
    rw [noteRegistry_commit hT hop]
    exact h.commit hT hnow hargs _
  · exact h.mono rfl fun u U hU => ⟨U, (Registry.txns_close hU).2, rfl, rfl⟩

/-! ## The list of workers -/

/-- The list of workers at some time: each worker that has ever committed a registration, once and in the order of
the ids, with the time of its first registration, what its last registration has told, and the begin of its last
committed transaction, which tells whether it is alive. -/
structure ListsWorkers (now : Timestamp) (s : Registry) (ops : List RegistryOp) : Prop where
  sorted : (listWorkers now s.workers).Pairwise fun a b => a.workerId < b.workerId
  listed : ∀ id, (∃ row ∈ listWorkers now s.workers, row.workerId = id) ↔ opsOf ops id ≠ []
  started : ∀ row ∈ listWorkers now s.workers, ∃ op, (opsOf ops row.workerId).head? = some op ∧
    op.registered = true ∧ op.now = row.startedAt
  told : ∀ row ∈ listWorkers now s.workers, ((opsOf ops row.workerId).filter RegistryOp.registered).getLast?.map
    (fun op => (op.args.queues, op.args.hostname)) = some (row.queues, row.hostname)
  alive : ∀ row ∈ listWorkers now s.workers, ∃ op, (opsOf ops row.workerId).getLast? = some op ∧
    op.now = row.lastHeartbeatAt ∧ (row.alive = true ↔ now - seconds 120 < op.now)

/-- The list has the rows of the table. -/
theorem mem_listWorkers {now : Timestamp} {workers : WorkerTable} {row : WorkerRow} :
    row ∈ listWorkers now workers ↔ ∃ worker, workers.get row.workerId = some worker ∧ worker.toRow now = row := by
  rw [listWorkers, List.mem_map]
  constructor
  · rintro ⟨worker, hmem, rfl⟩
    exact ⟨worker, Table.get_of_mem ((List.mem_insertionSort _).mp hmem), rfl⟩
  · rintro ⟨worker, hget, rfl⟩
    exact ⟨worker, (List.mem_insertionSort _).mpr ((Table.get_eq_some_iff _ _ _).mp hget).1, rfl⟩

/-- It is sorted by the ids, each of which it has once. -/
theorem sorted_listWorkers (now : Timestamp) (workers : WorkerTable) :
    (listWorkers now workers).Pairwise fun a b => a.workerId < b.workerId := by
  have hle := List.pairwise_insertionSort (fun a b : PgRelayWorker => a.workerId ≤ b.workerId) workers.rows
  have hperm := List.perm_insertionSort (fun a b : PgRelayWorker => a.workerId ≤ b.workerId) workers.rows
  have hne := List.pairwise_map.mp ((hperm.map PgRelayWorker.workerId).nodup_iff.mpr workers.nodup)
  rw [listWorkers, List.pairwise_map]
  exact hle.imp₂ (fun a b hle hne => String.not_le.mp fun hle' => hne (String.le_antisymm hle hle')) hne

/-- If the rows sum up the committed transactions, the list is that of these. -/
theorem RegistryInv.listsWorkers (h : RegistryInv s ops) (now : Timestamp) : ListsWorkers now s ops := by
  refine ⟨sorted_listWorkers now s.workers, fun id => ⟨?_, fun hops => ?_⟩, fun row hrow => ?_, fun row hrow => ?_,
    fun row hrow => ?_⟩
  · rintro ⟨row, hrow, rfl⟩ hnil
    obtain ⟨worker, hget, -⟩ := mem_listWorkers.mp hrow
    obtain ⟨op, hop, -⟩ := (h.row _ worker hget).started
    rw [hnil] at hop
    cases hop
  · cases hget : s.workers.get id with
    | none => exact absurd (h.missing id hget) hops
    | some worker =>
      have hid : worker.workerId = id := Table.key_of_get hget
      exact ⟨worker.toRow now, mem_listWorkers.mpr ⟨worker, by rw [← hid] at hget; exact hget, rfl⟩, hid⟩
  · obtain ⟨worker, hget, rfl⟩ := mem_listWorkers.mp hrow
    exact (h.row _ worker hget).started
  · obtain ⟨worker, hget, rfl⟩ := mem_listWorkers.mp hrow
    exact (h.row _ worker hget).told
  · obtain ⟨worker, hget, rfl⟩ := mem_listWorkers.mp hrow
    obtain ⟨op, hop, hnow⟩ := Option.map_eq_some_iff.mp (h.row _ worker hget).beat
    refine ⟨op, hop, hnow, ?_⟩
    rw [hnow]
    exact decide_eq_true_iff

/-- In a list that is in order no transaction has begun after the last one. -/
theorem le_of_getLast? {last : RegistryOp} (hsorted : ops.Pairwise fun op op' => op.now ≤ op'.now)
    (hlast : ops.getLast? = some last) (hop : op ∈ ops) : op.now ≤ last.now := by
  obtain ⟨ops', rfl⟩ := List.getLast?_eq_some_iff.mp hlast
  rcases List.mem_append.mp hop with hold | hnew
  · exact (List.pairwise_append.mp hsorted).2.2 op hold last List.mem_cons_self
  · rw [List.mem_singleton.mp hnew]

/-- What is noted of an action comes after what has been noted before. -/
theorem noteRegistry_grows (ops : List RegistryOp) (s : Registry) (a : RegistryAction) (s' : Registry) :
    ops <+: noteRegistry ops s a s' := by
  cases a with
  | commit t => exact List.prefix_append _ _
  | tick | registerWorker | heartbeatWorker | advance | rollback => exact List.prefix_refl _

/-- The committed transactions of a worker stay committed. -/
theorem opsOf_grows {ops' : List RegistryOp} {ok : Registry → RegistryAction → Prop}
    (h : ReachesUnder (observed Registry.step noteRegistry) (fun so a => ok so.1 a) (s, ops) (s', ops'))
    (id : WorkerId) : opsOf ops id <+: opsOf ops' id := by
  have hgrown : ops <+: ops' := h.observed_invariant ok (I := fun _ later => ops <+: later) (List.prefix_refl ops)
    fun s later a s' hI _ _ => hI.trans (noteRegistry_grows later s a s')
  exact hgrown.filter _

/-- The rows of a run of processes with ids of their own sum up the committed transactions, which are in order. -/
theorem inOrder_of_reaches {clock : Timestamp} (h : ReachesUnder (observed Registry.step noteRegistry)
    (fun so a => ownIds so.1 a) (.init clock, []) (s, ops)) : RegistryInv s ops ∧ InOrder s ops :=
  h.observed_invariant ownIds (I := fun s ops => RegistryInv s ops ∧ InOrder s ops)
    ⟨registryInv_init clock, inOrder_init clock⟩
    fun _ _ _ _ hI hown hs => ⟨hI.1.step hs, hI.2.step hI.1 hown hs⟩

/-- If the committed transactions of a worker are in order, its row has the begin of the first registration and the
newest begin. -/
theorem ListsWorkers.newest {now : Timestamp} {row : WorkerRow} (h : ListsWorkers now s ops) (horder : InOrder s ops)
    (hrow : row ∈ listWorkers now s.workers) : ∃ last ∈ opsOf ops row.workerId, last.now = row.lastHeartbeatAt ∧
      (∀ op ∈ opsOf ops row.workerId, op.now ≤ last.now) ∧ (row.alive = true ↔ now - seconds 120 < last.now) := by
  obtain ⟨last, hlast, hbeat, halive⟩ := h.alive row hrow
  exact ⟨last, List.mem_of_getLast? hlast, hbeat, fun op hop => le_of_getLast? (horder.sorted _) hlast hop, halive⟩

/-- A row of the list goes on to a later state of a run: the worker is still listed, with the same first
registration, and its heartbeat has not gone back. -/
theorem ListsWorkers.goesOn {now now' : Timestamp} {ops' : List RegistryOp} {row : WorkerRow}
    (h : ListsWorkers now s ops) (h' : ListsWorkers now' s' ops') (horder : InOrder s' ops')
    (hgrown : ∀ id, opsOf ops id <+: opsOf ops' id) (hrow : row ∈ listWorkers now s.workers) :
    ∃ row' ∈ listWorkers now' s'.workers, row'.workerId = row.workerId ∧ row'.startedAt = row.startedAt ∧
      row.lastHeartbeatAt ≤ row'.lastHeartbeatAt := by
  obtain ⟨first, hfirst, -, hstarted⟩ := h.started row hrow
  obtain ⟨last, hlast, hbeat, -⟩ := h.alive row hrow
  obtain ⟨more, hmore⟩ := hgrown row.workerId
  have hops : opsOf ops' row.workerId ≠ [] := fun hnil => by
    rw [hnil] at hmore
    rw [(List.append_eq_nil_iff.mp hmore).1] at hfirst
    cases hfirst
  obtain ⟨row', hrow', hid⟩ := (h'.listed row.workerId).mpr hops
  obtain ⟨first', hfirst', -, hstarted'⟩ := h'.started row' hrow'
  obtain ⟨newest, -, hbeat', hnewest, -⟩ := h'.newest horder hrow'
  rw [hid] at hfirst' hnewest
  refine ⟨row', hrow', hid, ?_, ?_⟩
  · rw [← hmore, List.head?_append, hfirst, Option.some_or] at hfirst'
    rw [← hstarted, ← hstarted', Option.some.inj hfirst']
  · rw [← hbeat, ← hbeat']
    exact hnewest last ((hgrown row.workerId).subset (List.mem_of_getLast? hlast))

/-- In every run of any number of worker processes, whatever is rolled back: the list of workers is that of the
committed registrations and heartbeats. If each process has an id of its own, the transactions of a worker are
committed in the order of their begins; then a worker is alive exactly if some registration or heartbeat of it
that has been committed has begun within the last two minutes, and in what follows of the run it stays in the list
and its heartbeat never goes back. -/
theorem workers_listed (clock : Timestamp) :
    (∀ s ops, Reaches (observed Registry.step noteRegistry) (.init clock, []) (s, ops) →
      ∀ now, ListsWorkers now s ops) ∧
    (∀ s ops,
      ReachesUnder (observed Registry.step noteRegistry) (fun so a => ownIds so.1 a) (.init clock, []) (s, ops) →
      ∀ now, ∀ row ∈ listWorkers now s.workers, row.startedAt ≤ row.lastHeartbeatAt ∧ row.lastHeartbeatAt ≤ s.clock ∧
        (row.alive = true ↔ ∃ op ∈ opsOf ops row.workerId, now - seconds 120 < op.now)) ∧
    ∀ s ops s' ops',
      ReachesUnder (observed Registry.step noteRegistry) (fun so a => ownIds so.1 a) (.init clock, []) (s, ops) →
      ReachesUnder (observed Registry.step noteRegistry) (fun so a => ownIds so.1 a) (s, ops) (s', ops') →
      ∀ now now', ∀ row ∈ listWorkers now s.workers, ∃ row' ∈ listWorkers now' s'.workers,
        row'.workerId = row.workerId ∧ row'.startedAt = row.startedAt ∧ row.lastHeartbeatAt ≤ row'.lastHeartbeatAt := by
  have hinv {s : Registry} {ops : List RegistryOp}
      (h : Reaches (observed Registry.step noteRegistry) (.init clock, []) (s, ops)) : RegistryInv s ops :=
    h.observed_invariant (fun _ _ => True) (I := fun s ops => RegistryInv s ops) (registryInv_init clock)
      fun _ _ _ _ hI _ hs => hI.step hs
  refine ⟨fun s ops h => (hinv h).listsWorkers, fun s ops h now row hrow => ?_,
    fun s ops s' ops' h hrest now now' row hrow => ?_⟩
  · obtain ⟨hrows, horder⟩ := inOrder_of_reaches h
    obtain ⟨first, hfirst, -, hstarted⟩ := (hrows.listsWorkers now).started row hrow
    obtain ⟨last, hmem, hbeat, hlatest, halive⟩ := (hrows.listsWorkers now).newest horder hrow
    refine ⟨?_, ?_, ?_⟩
    · rw [← hstarted, ← hbeat]
      exact hlatest first (List.mem_of_mem_head? hfirst)
    · rw [← hbeat]
      exact horder.past last (List.mem_filter.mp hmem).1
    · rw [halive]
      constructor
      · intro hrecent
        exact ⟨last, hmem, hrecent⟩
      · rintro ⟨op, hop, hrecent⟩
        exact lt_of_lt_of_le hrecent (hlatest op hop)
  · obtain ⟨hrows', horder'⟩ := inOrder_of_reaches (h.trans hrest)
    exact ((inOrder_of_reaches h).1.listsWorkers now).goesOn (hrows'.listsWorkers now') horder' (opsOf_grows hrest) hrow

/-- A process that runs the queue of mails. -/
def mailWorker (id : WorkerId) : WorkerArgs := ⟨id, ["mail"], "host"⟩

/-- A process may begin while nothing but a transaction of another one is open. -/
theorem ownIds_of_open {args args' : WorkerArgs} {pc : RegistryPc} (hidle : ∀ t, s.txns t = none)
    (hid : args.workerId ≠ args'.workerId) : ownIds (s.open args pc) (.registerWorker args') := by
  intro t T hT
  rcases Registry.txns_open hT with ⟨-, rfl⟩ | ⟨-, hT'⟩
  · exact hid
  · cases (hidle t).symm.trans hT'

/-- Two processes register at the same time, and the second one commits first. Three minutes later only the first one
still sends its heartbeat. -/
theorem workers_listed_registeredTwo : ∃ s ops s' ops',
    ReachesUnder (observed Registry.step noteRegistry) (fun so a => ownIds so.1 a) (.init 0, []) (s, ops) ∧
      ReachesUnder (observed Registry.step noteRegistry) (fun so a => ownIds so.1 a) (s, ops) (s', ops') ∧
      (listWorkers s.clock s.workers).map (fun row => (row.workerId, row.lastHeartbeatAt, row.alive)) =
        [("a", 0, true), ("b", 0, true)] ∧
      (listWorkers s'.clock s'.workers).map (fun row => (row.workerId, row.lastHeartbeatAt, row.alive)) =
        [("a", seconds 180, true), ("b", 0, false)] ∧
      ListsWorkers s'.clock s' ops' ∧
      (∀ row ∈ listWorkers s'.clock s'.workers, row.startedAt ≤ row.lastHeartbeatAt ∧
        row.lastHeartbeatAt ≤ s'.clock ∧
        (row.alive = true ↔ ∃ op ∈ opsOf ops' row.workerId, s'.clock - seconds 120 < op.now)) ∧
      ∀ row ∈ listWorkers s.clock s.workers, ∃ row' ∈ listWorkers s'.clock s'.workers,
        row'.workerId = row.workerId ∧ row'.startedAt = row.startedAt ∧ row.lastHeartbeatAt ≤ row'.lastHeartbeatAt := by
  have hinit : ReachesUnder (observed Registry.step noteRegistry) (fun so a => ownIds so.1 a) (.init 0, [])
      (.init 0, []) := .refl
  have hbegun := hinit.observed_tail (.registerWorker (mailWorker "a")) nofun rfl
  have hboth := hbegun.observed_tail (.registerWorker (mailWorker "b")) (ownIds_of_open (fun _ => rfl) (by decide)) rfl
  have hfirst := hboth.observed_tail (.advance 0) trivial rfl
  have hsecond := hfirst.observed_tail (.advance 1) trivial rfl
  have hcommitted := hsecond.observed_tail (.commit 1) trivial rfl
  have hregistered := hcommitted.observed_tail (.commit 0) trivial rfl
  have hstay {so so' : Registry × List RegistryOp}
      (_ : ReachesUnder (observed Registry.step noteRegistry) (fun so a => ownIds so.1 a) so so') :
      ReachesUnder (observed Registry.step noteRegistry) (fun so a => ownIds so.1 a) so' so' := .refl
  have hlater := (hstay hregistered).observed_tail (.tick 180000000) trivial rfl
  have hbeats := hlater.observed_tail (.heartbeatWorker (mailWorker "a")) (fun t T hT => by
    rcases t with _ | _ | t <;> cases hT) rfl
  have hwritten := hbeats.observed_tail (.advance 2) trivial rfl
  have hend := hwritten.observed_tail (.commit 2) trivial rfl
  obtain ⟨hlists, halive, hgoesOn⟩ := workers_listed 0
  exact ⟨_, _, _, _, hregistered, hend, by decide, by decide,
    hlists _ _ (ReachesUnder.reaches (hregistered.trans hend)) _, halive _ _ (hregistered.trans hend) _,
    hgoesOn _ _ _ _ hregistered hend _ _⟩

end PgRelay
