import PgRelay.Validation
import Mathlib.Logic.Relation

/-!
# Connections to public addresses

The network backend of the HTTP client. It resolves a host, checks every address of the answer and hands the
first of them to the backend that it wraps. The resolver answers as it likes, to each call anew, and a client
opens any number of connections, whose steps come in any order.

The wrapped backend is a library. It takes an address for what it is, and would resolve a name.
-/

namespace PgRelay

open PyText

/-! ## The backend -/

/-- What happens on the network. -/
inductive NetEvent
  /-- `socket.getaddrinfo` is called. -/
  | query (host : PyStr) (port : Int)
  /-- It has answered, with these addresses in its socket addresses. -/
  | answer (addresses : List PyStr)
  /-- A TCP connection has been opened. -/
  | connect (address : PyStr) (port : Int)

/-- The event is a query of the resolver. -/
def NetEvent.isQuery : NetEvent → Bool
  | .query _ _ => true
  | _ => false

/-- The event opens a connection. -/
def NetEvent.isConnect : NetEvent → Bool
  | .connect _ _ => true
  | _ => false

/-- `connect_tcp` of the wrapped backend: the events that a call can have caused so far, and those with which it
returns a stream. It opens one connection to the text of an address, without a resolver. -/
structure WrappedBackend (ip : IpLibrary) where
  causes : PyStr → Int → List NetEvent → Prop
  returns : PyStr → Int → List NetEvent → Prop
  causes_literal : ∀ {host port events}, ip.ipAddress host ≠ none → causes host port events →
    events = [] ∨ events = [.connect host port]
  returns_literal : ∀ {host port events}, ip.ipAddress host ≠ none → returns host port events →
    events = [.connect host port]

/-- The loop of `resolve_public_address`, with the addresses it has appended so far. -/
def collectAddresses (ip : IpLibrary) (addresses : List PyStr) : List PyStr → Except PyException (List PyStr)
  | [] => .ok addresses
  | address :: infos =>
    match isBlockedIpAddress ip address with
    | .error exc => .error exc
    | .ok true => .error (validationError (ofString "HTTP target resolves to a blocked network address"))
    | .ok false => collectAddresses ip (addresses ++ [address]) infos

/-- `resolve_public_address` once the resolver has answered. -/
def publicAddress (ip : IpLibrary) (infos : List PyStr) : Except PyException PyStr :=
  match collectAddresses ip [] infos with
  | .error exc => .error exc
  | .ok [] => .error (validationError (ofString "HTTP target did not resolve"))
  | .ok (address :: _) => .ok address

/-- The network backends of a client. -/
inductive NetworkBackend
  /-- The one that `httpx` chooses. -/
  | plain
  /-- `SafeAsyncNetworkBackend`. -/
  | safe
  deriving DecidableEq

/-- `httpx.AsyncClient`. -/
structure HttpClient where
  followRedirects : Bool
  networkBackend : NetworkBackend

/-- `create_http_client`. -/
def createHttpClient (settings : Settings) : HttpClient :=
  if settings.blockPrivateNetworkTargets then ⟨false, .safe⟩ else ⟨false, .plain⟩

/-! ## Connecting -/

/-- Where a call of `connect_tcp` stands. -/
inductive ConnectPc
  | called
  /-- The resolver works in its thread. -/
  | resolving
  /-- In `connect_tcp` of the wrapped backend, with what it has done. -/
  | wrapped (host : PyStr) (events : List NetEvent)
  | returned
  | raised (exc : PyException)

/-- A call of `connect_tcp`. -/
structure Connecting where
  host : PyStr
  port : Int
  pc : ConnectPc

/-- `connect_tcp` goes on with the answer of the resolver; it awaits nothing in between. -/
def afterAnswer (ip : IpLibrary) (infos : List PyStr) : ConnectPc :=
  match publicAddress ip infos with
  | .ok address => .wrapped address []
  | .error exc => .raised exc

/-- A step of a call with the events it causes. -/
inductive Connecting.Step {ip : IpLibrary} (wrapped : WrappedBackend ip) (backend : NetworkBackend) (c : Connecting) :
    List NetEvent → Connecting → Prop
  | resolve (hbackend : backend = .safe) (hpc : c.pc = .called) :
      Step wrapped backend c [.query c.host c.port] { c with pc := .resolving }
  | answered (infos : List PyStr) (hpc : c.pc = .resolving) :
      Step wrapped backend c [.answer infos] { c with pc := afterAnswer ip infos }
  -- The resolver fails, or the call is cancelled.
  | unresolved (exc : PyException) (hpc : c.pc = .resolving) : Step wrapped backend c [] { c with pc := .raised exc }
  | delegate (hbackend : backend = .plain) (hpc : c.pc = .called) :
      Step wrapped backend c [] { c with pc := .wrapped c.host [] }
  | wrapped {host events event} (hpc : c.pc = .wrapped host events)
      (hcauses : wrapped.causes host c.port (events ++ [event])) :
      Step wrapped backend c [event] { c with pc := .wrapped host (events ++ [event]) }
  | connected {host events} (hpc : c.pc = .wrapped host events) (hreturns : wrapped.returns host c.port events) :
      Step wrapped backend c [] { c with pc := .returned }
  | failed {host events} (exc : PyException) (hpc : c.pc = .wrapped host events) :
      Step wrapped backend c [] { c with pc := .raised exc }

/-- A client at work: its calls of `connect_tcp`, and the events with the places of the calls that caused them. -/
structure ClientRun where
  calls : List Connecting
  trace : List (ℕ × NetEvent)

/-- The events of a call. -/
def ClientRun.events (s : ClientRun) (i : ℕ) : List NetEvent := (s.trace.filter fun e => e.1 = i).map Prod.snd

/-- A step of a client: another call, or a step of one. -/
inductive ClientRun.Step {ip : IpLibrary} (wrapped : WrappedBackend ip) (client : HttpClient) (s : ClientRun) :
    ClientRun → Prop
  | call (host : PyStr) (port : Int) :
      Step wrapped client s { s with calls := s.calls ++ [⟨host, port, .called⟩] }
  | act {i c events c'} (hcall : s.calls[i]? = some c) (hstep : c.Step wrapped client.networkBackend events c') :
      Step wrapped client s { calls := s.calls.set i c', trace := s.trace ++ events.map fun event => (i, event) }

/-- What a client has come to. -/
def ClientRun.Reached {ip : IpLibrary} (wrapped : WrappedBackend ip) (client : HttpClient) : ClientRun → Prop :=
  Relation.ReflTransGen (ClientRun.Step wrapped client) ⟨[], []⟩

/-- A call resolves its host at most once and opens at most one connection, to an address of the answer, of which
all are public. For any other answer it raises, and it returns only with a connection. -/
structure PublicOnly (ip : IpLibrary) (c : Connecting) (events : List NetEvent) : Prop where
  queries : (events.filter NetEvent.isQuery).length ≤ 1
  connects : (events.filter NetEvent.isConnect).length ≤ 1
  checked : ∀ address port, .connect address port ∈ events → ∃ infos,
    events = [.query c.host c.port, .answer infos, .connect address c.port] ∧ port = c.port ∧ address ∈ infos ∧
      ∀ info ∈ infos, isBlockedIpAddress ip info = .ok false
  rejected : ∀ infos, .answer infos ∈ events →
    (infos = [] ∨ ∃ info ∈ infos, isBlockedIpAddress ip info ≠ .ok false) →
      (∃ exc, c.pc = .raised exc) ∧ events.filter NetEvent.isConnect = []
  returned : c.pc = .returned → (events.filter NetEvent.isConnect).length = 1

variable {ip : IpLibrary} {wrapped : WrappedBackend ip} {c c' : Connecting} {s s' : ClientRun}

/-! ## The check -/

/-- The loop passes exactly the answers of which no address is blocked. -/
theorem collectAddresses_eq_ok {addresses infos result : List PyStr} :
    collectAddresses ip addresses infos = .ok result ↔
      (∀ info ∈ infos, isBlockedIpAddress ip info = .ok false) ∧ result = addresses ++ infos := by
  induction infos generalizing addresses with
  | nil => simp [collectAddresses, eq_comm]
  | cons address infos ih =>
    rw [List.forall_mem_cons, collectAddresses]
    cases hblocked : isBlockedIpAddress ip address with
    | error exc => simp
    | ok blocked =>
      cases blocked with
      | true => simp
      | false => simp [ih]

/-- The address that is connected to is the first one of an answer without blocked addresses. -/
theorem publicAddress_eq_ok {infos : List PyStr} {address : PyStr} :
    publicAddress ip infos = .ok address ↔
      (∀ info ∈ infos, isBlockedIpAddress ip info = .ok false) ∧ infos.head? = some address := by
  unfold publicAddress
  cases hresult : collectAddresses ip [] infos with
  | error exc =>
    simp only [reduceCtorEq, false_iff, not_and]
    intro hpublic
    have hok : collectAddresses ip [] infos = .ok infos := collectAddresses_eq_ok.mpr ⟨hpublic, rfl⟩
    cases hok.symm.trans hresult
  | ok result =>
    obtain ⟨hpublic, rfl⟩ := collectAddresses_eq_ok.mp hresult
    cases result with
    | nil => simp
    | cons first rest => simpa using fun _ => hpublic

/-- What is not blocked is an address. -/
theorem ipAddress_ne_none {address : PyStr} (h : isBlockedIpAddress ip address = .ok false) :
    ip.ipAddress address ≠ none := by
  rintro hnone
  simp [isBlockedIpAddress, hnone] at h

/-! ## One call -/

/-- The events of a call of the safe backend, by where it stands. -/
inductive SafeTrace (ip : IpLibrary) (host : PyStr) (port : Int) : ConnectPc → List NetEvent → Prop
  | called : SafeTrace ip host port .called []
  | resolving : SafeTrace ip host port .resolving [.query host port]
  | unresolved (exc : PyException) : SafeTrace ip host port (.raised exc) [.query host port]
  | refused {infos exc} (h : publicAddress ip infos = .error exc) :
      SafeTrace ip host port (.raised exc) [.query host port, .answer infos]
  | dialing {infos address} (h : publicAddress ip infos = .ok address) :
      SafeTrace ip host port (.wrapped address []) [.query host port, .answer infos]
  | undialed {infos address} (exc : PyException) (h : publicAddress ip infos = .ok address) :
      SafeTrace ip host port (.raised exc) [.query host port, .answer infos]
  | opened {infos address} (h : publicAddress ip infos = .ok address) :
      SafeTrace ip host port (.wrapped address [.connect address port])
        [.query host port, .answer infos, .connect address port]
  | returned {infos address} (h : publicAddress ip infos = .ok address) :
      SafeTrace ip host port .returned [.query host port, .answer infos, .connect address port]
  | broken {infos address} (exc : PyException) (h : publicAddress ip infos = .ok address) :
      SafeTrace ip host port (.raised exc) [.query host port, .answer infos, .connect address port]

/-- The answer of the resolver decides how the call goes on. -/
theorem SafeTrace.answered (ip : IpLibrary) (host : PyStr) (port : Int) (infos : List PyStr) :
    SafeTrace ip host port (afterAnswer ip infos) [.query host port, .answer infos] := by
  unfold afterAnswer
  cases hresult : publicAddress ip infos with
  | ok address => exact .dialing hresult
  | error exc => exact .refused hresult

/-- The wrapped backend is called with the text of an address. -/
theorem publicAddress_literal {infos : List PyStr} {address : PyStr} (h : publicAddress ip infos = .ok address) :
    ip.ipAddress address ≠ none := by
  obtain ⟨hpublic, hhead⟩ := publicAddress_eq_ok.mp h
  exact ipAddress_ne_none (hpublic address (List.mem_of_head? hhead))

/-- Every step of a call of the safe backend keeps to its trace. -/
theorem SafeTrace.step {events new : List NetEvent} (h : SafeTrace ip c.host c.port c.pc events)
    (hstep : c.Step wrapped .safe new c') : SafeTrace ip c'.host c'.port c'.pc (events ++ new) := by
  cases hstep with
  | resolve _ hpc =>
    rw [hpc] at h
    cases h
    exact .resolving
  | answered infos hpc =>
    rw [hpc] at h
    cases h
    exact .answered ip c.host c.port infos
  | unresolved exc hpc =>
    rw [hpc] at h
    cases h
    exact .unresolved exc
  | delegate hbackend => cases hbackend
  | wrapped hpc hcauses =>
    rw [hpc] at h
    cases h with
    | dialing haddress =>
      rcases wrapped.causes_literal (publicAddress_literal haddress) hcauses with hnil | hone
      · simp at hnil
      · obtain rfl : _ = NetEvent.connect _ _ := by simpa using hone
        exact .opened haddress
    | opened haddress =>
      rcases wrapped.causes_literal (publicAddress_literal haddress) hcauses with hnil | hone
      · simp at hnil
      · simp at hone
  | connected hpc hreturns =>
    rw [hpc] at h
    cases h with
    | dialing haddress => cases wrapped.returns_literal (publicAddress_literal haddress) hreturns
    | opened haddress => exact .returned haddress
  | failed exc hpc =>
    rw [hpc] at h
    cases h with
    | dialing haddress => exact .undialed exc haddress
    | opened haddress => exact .broken exc haddress

/-- An answer that passes has addresses, and none of them is blocked. -/
theorem not_rejected {infos : List PyStr} {address : PyStr} (h : publicAddress ip infos = .ok address) :
    ¬ (infos = [] ∨ ∃ info ∈ infos, isBlockedIpAddress ip info ≠ .ok false) := by
  obtain ⟨hpublic, hhead⟩ := publicAddress_eq_ok.mp h
  rintro (rfl | ⟨info, hmem, hblocked⟩)
  · cases hhead
  · exact hblocked (hpublic info hmem)

/-- A call that connects to a checked address. -/
theorem publicOnly_of_connected {infos : List PyStr} {address : PyStr} (h : publicAddress ip infos = .ok address) :
    PublicOnly ip c [.query c.host c.port, .answer infos, .connect address c.port] := by
  obtain ⟨hpublic, hhead⟩ := publicAddress_eq_ok.mp h
  refine ⟨le_rfl, le_rfl, fun address' port hmem => ?_, fun infos' hmem hrejected => ?_, fun _ => rfl⟩
  · obtain ⟨rfl, rfl⟩ : address' = address ∧ port = c.port := by simpa using hmem
    exact ⟨infos, rfl, rfl, List.mem_of_head? hhead, hpublic⟩
  · obtain rfl : infos' = infos := by simpa using hmem
    exact absurd hrejected (not_rejected h)

/-- A call that does not connect. -/
theorem publicOnly_of_unconnected {events : List NetEvent} (hqueries : (events.filter NetEvent.isQuery).length ≤ 1)
    (hconnects : events.filter NetEvent.isConnect = []) (hpc : c.pc ≠ .returned)
    (hanswer : ∀ infos, .answer infos ∈ events → (∃ address, publicAddress ip infos = .ok address) ∨
      ∃ exc, c.pc = .raised exc) : PublicOnly ip c events := by
  refine ⟨hqueries, by simp [hconnects], fun address port hmem => ?_, fun infos hmem hrejected => ⟨?_, hconnects⟩,
    fun h => absurd h hpc⟩
  · have hfilter : NetEvent.connect address port ∈ events.filter NetEvent.isConnect :=
      List.mem_filter.mpr ⟨hmem, rfl⟩
    simp [hconnects] at hfilter
  · rcases hanswer infos hmem with ⟨address, haddress⟩ | hraised
    · exact absurd hrejected (not_rejected haddress)
    · exact hraised

/-- What a trace promises. -/
theorem SafeTrace.publicOnly {events : List NetEvent} (h : SafeTrace ip c.host c.port c.pc events) :
    PublicOnly ip c events := by
  generalize hpc : c.pc = pc at h
  cases h with
  | called => exact publicOnly_of_unconnected (by decide) rfl (by simp [hpc]) (by simp)
  | resolving => exact publicOnly_of_unconnected le_rfl rfl (by simp [hpc]) (by simp)
  | unresolved exc => exact publicOnly_of_unconnected le_rfl rfl (by simp [hpc]) (by simp)
  | refused h => exact publicOnly_of_unconnected le_rfl rfl (by simp [hpc]) (by simp [hpc])
  | @dialing infos address h =>
    refine publicOnly_of_unconnected le_rfl rfl (by simp [hpc]) fun infos' hmem => .inl ⟨address, ?_⟩
    obtain rfl : infos' = infos := by simpa using hmem
    exact h
  | undialed exc h => exact publicOnly_of_unconnected le_rfl rfl (by simp [hpc]) (by simp [hpc])
  | opened h => exact publicOnly_of_connected h
  | returned h => exact publicOnly_of_connected h
  | broken exc h => exact publicOnly_of_connected h

/-! ## A client at work -/

/-- New events of one call are no events of the others. -/
@[simp] theorem ClientRun.events_append (calls : List Connecting) (trace : List (ℕ × NetEvent)) (i j : ℕ)
    (new : List NetEvent) : ClientRun.events ⟨calls, trace ++ new.map fun event => (i, event)⟩ j =
      ClientRun.events ⟨calls, trace⟩ j ++ if i = j then new else [] := by
  simp only [ClientRun.events, List.filter_append, List.map_append, List.filter_map, Function.comp_def]
  split_ifs with h <;> simp [h]

/-- Every call keeps to its trace, and no event is caused by a call that has not been made. -/
structure ClientOk (ip : IpLibrary) (s : ClientRun) : Prop where
  calls : ∀ i c, s.calls[i]? = some c → SafeTrace ip c.host c.port c.pc (s.events i)
  places : ∀ i, s.calls.length ≤ i → s.events i = []

/-- Every step of a client with the safe backend keeps its calls safe. -/
theorem ClientOk.step {client : HttpClient} (h : ClientOk ip s) (hclient : client.networkBackend = .safe)
    (hstep : s.Step wrapped client s') : ClientOk ip s' := by
  cases hstep with
  | call host port =>
    refine ⟨fun i c hcall => ?_, fun i hi => h.places i ?_⟩
    · rcases Nat.lt_trichotomy i s.calls.length with hlt | rfl | hgt
      · rw [List.getElem?_append_left hlt] at hcall
        exact h.calls i c hcall
      · obtain rfl : ⟨host, port, .called⟩ = c := by simpa using hcall
        have hnone : ClientRun.events ⟨s.calls ++ [⟨host, port, .called⟩], s.trace⟩ s.calls.length = [] :=
          h.places _ le_rfl
        rw [hnone]
        exact .called
      · rw [List.getElem?_eq_none (by simpa using Nat.succ_le_of_lt hgt)] at hcall
        cases hcall
    · simp only [List.length_append, List.length_singleton] at hi
      omega
  | @act i c events c' hcall hstep =>
    have hlt := (List.getElem?_eq_some_iff.mp hcall).1
    rw [hclient] at hstep
    refine ⟨fun j d hd => ?_, fun j hj => ?_⟩
    · rw [ClientRun.events_append]
      by_cases hij : i = j
      · subst hij
        obtain rfl : c' = d := by simpa [List.getElem?_set_self hlt] using hd
        rw [if_pos rfl]
        exact (h.calls i c hcall).step hstep
      · rw [if_neg hij, List.append_nil]
        rw [List.getElem?_set_ne hij] at hd
        exact h.calls j d hd
    · rw [List.length_set] at hj
      rw [ClientRun.events_append, if_neg (by omega), List.append_nil]
      exact h.places j hj

/-- So they are in every run. -/
theorem ClientRun.Reached.clientOk {client : HttpClient} (h : ClientRun.Reached wrapped client s)
    (hclient : client.networkBackend = .safe) : ClientOk ip s := by
  induction h with
  | refl => exact ⟨by simp, fun _ _ => rfl⟩
  | tail _ hstep ih => exact ih.step hclient hstep

/-- Whatever the resolver answers, a client that blocks private targets connects to public addresses only, each of
them one of the single answer that was checked for its connection. -/
theorem connect_publicOnly {settings : Settings} (hblock : settings.blockPrivateNetworkTargets = true)
    (h : ClientRun.Reached wrapped (createHttpClient settings) s) {i : ℕ} (hcall : s.calls[i]? = some c) :
    PublicOnly ip c (s.events i) := by
  have hclient : (createHttpClient settings).networkBackend = .safe := by
    rw [createHttpClient, if_pos hblock]
  exact ((h.clientOk hclient).calls i c hcall).publicOnly

/-- A library that knows one public address. -/
def oneAddress : IpLibrary where
  ipAddress address :=
    if address = ofString "1.1.1.1" then some ⟨true, false, false, false, false, false, false⟩ else none
  errorText address := address ++ ofString " does not appear to be an IPv4 or IPv6 address"

/-- A backend that connects to an address, or does nothing. -/
def directBackend : WrappedBackend oneAddress where
  causes host port events := events = [] ∨ events = [.connect host port]
  returns host port events := events = [.connect host port]
  causes_literal _ h := h
  returns_literal _ h := h

/-- A call that resolves its host to one public address. -/
theorem connect_publicOnly_oneAddress : ∃ (s : ClientRun) (c : Connecting), s.calls[0]? = some c ∧ c.pc = .returned ∧
    PublicOnly oneAddress c (s.events 0) := by
  let host := ofString "example.org"
  let address := ofString "1.1.1.1"
  have hblocked : isBlockedIpAddress oneAddress address = .ok false := by
    simp [isBlockedIpAddress, oneAddress, address]
  have hanswer : afterAnswer oneAddress [address] = .wrapped address [] := by
    have haddress : publicAddress oneAddress [address] = .ok address :=
      publicAddress_eq_ok.mpr ⟨by simpa using hblocked, rfl⟩
    rw [afterAnswer, haddress]
  have hact {c c' : Connecting} {trace : List (ℕ × NetEvent)} {new : List NetEvent}
      (h : ClientRun.Reached directBackend (createHttpClient .smallest) ⟨[c], trace⟩)
      (hstep : c.Step directBackend .safe new c') : ClientRun.Reached directBackend (createHttpClient .smallest)
        ⟨[c'], trace ++ new.map fun event => (0, event)⟩ :=
    h.tail (.act (i := 0) rfl hstep)
  have hcalled : ClientRun.Reached directBackend (createHttpClient .smallest) ⟨[⟨host, 443, .called⟩], []⟩ :=
    .tail .refl (.call host 443)
  have hanswered := hact (hact hcalled (.resolve rfl rfl)) (.answered [address] rfl)
  rw [hanswer] at hanswered
  have hopened := hact hanswered (.wrapped rfl (.inr rfl))
  exact ⟨_, _, rfl, rfl, connect_publicOnly rfl (hact hopened (.connected rfl rfl)) rfl⟩

end PgRelay
