import PgRelay.Schema
import PgRelay.Validation
import PgRelay.RowStore.Runs

/-!
# The handlers of a worker

A program registers its handlers with `register`, which takes a function or returns a decorator for one. A decorator
may be kept and used later, and more than once; the checks on the function are made when it is used. Whatever the
program does, the handler of a name is the first async function that has been offered for it: the names that are
taken are never given again, and an offer that is rejected changes nothing.
-/

namespace PgRelay

open PyText RowStore

variable {Handler : Type}

/-- `HandlerRegistry`, and the names of the decorators that `register` has returned. -/
structure HandlerRegistry (Handler : Type) where
  handlers : List (PyStr × Handler)
  decorators : List PyStr

namespace HandlerRegistry

/-- A registry without handlers. -/
def empty : HandlerRegistry Handler := ⟨[], []⟩

/-- `get`; `none` is a `KeyError`. -/
def get (registry : HandlerRegistry Handler) (name : PyStr) : Option Handler :=
  (registry.handlers.find? fun entry => entry.1 = name).map Prod.snd

variable (isCoroutineFunction : Handler → Bool)

/-- `decorator` inside `register`. -/
def decorator (registry : HandlerRegistry Handler) (name : PyStr) (candidate : Handler) :
    Except PyException (HandlerRegistry Handler) :=
  if isCoroutineFunction candidate = false then .error (validationError (ofString "Handler must be async"))
  else if (registry.get name).isSome then .error (validationError (ofString "Handler name already registered"))
  else .ok { registry with handlers := registry.handlers ++ [(name, candidate)] }

/-- `register`, with a handler or for a decorator. -/
def register (registry : HandlerRegistry Handler) (name : PyStr) (handler : Option Handler) :
    Except PyException (HandlerRegistry Handler) :=
  if name = [] then .error (validationError (ofString "Handler name is required"))
  else match handler with
    | none => .ok { registry with decorators := registry.decorators ++ [name] }
    | some handler => registry.decorator isCoroutineFunction name handler

/-- The registry after a call, which leaves it alone if it raises. -/
def afterCall (registry : HandlerRegistry Handler) : Except PyException (HandlerRegistry Handler) →
    HandlerRegistry Handler
  | .ok registry' => registry'
  | .error _ => registry

/-- What a program does with a registry: it calls `register`, or uses a decorator that it has got. -/
inductive Call (Handler : Type)
  | register (name : PyStr) (handler : Option Handler)
  | decorate (i : ℕ) (candidate : Handler)

/-- Perform a call. -/
def step (registry : HandlerRegistry Handler) : Call Handler → Option (HandlerRegistry Handler)
  | .register name handler => some (registry.afterCall (registry.register isCoroutineFunction name handler))
  | .decorate i candidate => registry.decorators[i]?.map fun name =>
      registry.afterCall (registry.decorator isCoroutineFunction name candidate)

/-- The function that a call offers, and the name for which it does. -/
def offer (registry : HandlerRegistry Handler) : Call Handler → Option (PyStr × Handler)
  | .register name handler => if name = [] then none else handler.map fun handler => (name, handler)
  | .decorate i candidate => registry.decorators[i]?.map fun name => (name, candidate)

/-- Note down the offers in their order. -/
def noteOffers (offers : List (PyStr × Handler)) (registry : HandlerRegistry Handler) (call : Call Handler)
    (_ : HandlerRegistry Handler) : List (PyStr × Handler) :=
  offers ++ (registry.offer call).toList

/-- `PythonHandlerExecutor.execute` with this registry, where the handler that it finds behaves in some way. -/
def execute (registry : HandlerRegistry Handler) (behaviour : Handler → HandlerReply) (job : JobRow) (durationMs : ℕ) :
    Except PyException ExecutorResult :=
  handlerExecute (((registry.get (ofString job.name)).map behaviour).getD .unregistered) durationMs

/-! ## The first offer -/

/-- The first async function that has been offered for a name. -/
def firstOffer (offers : List (PyStr × Handler)) (name : PyStr) : Option Handler :=
  (offers.find? fun entry => decide (entry.1 = name) && isCoroutineFunction entry.2).map Prod.snd

variable {isCoroutineFunction} {registry registry' : HandlerRegistry Handler} {offers : List (PyStr × Handler)}
  {name : PyStr} {candidate : Handler} {call : Call Handler}

/-- The handler of one more name is found under this name, if none was before. -/
theorem get_concat (name' : PyStr) :
    get { registry with handlers := registry.handlers ++ [(name, candidate)] } name' =
      (registry.get name').or (if name = name' then some candidate else none) := by
  unfold get
  rw [List.find?_append]
  cases registry.handlers.find? fun entry => entry.1 = name' with
  | some entry => rfl
  | none => by_cases hname : name = name' <;> simp [hname]

/-- One more offer is the first one for its name if it is an async function and none was before. -/
theorem firstOffer_concat (name' : PyStr) : firstOffer isCoroutineFunction (offers ++ [(name, candidate)]) name' =
    (firstOffer isCoroutineFunction offers name').or
      (if name = name' ∧ isCoroutineFunction candidate = true then some candidate else none) := by
  unfold firstOffer
  rw [List.find?_append]
  cases offers.find? fun entry => decide (entry.1 = name') && isCoroutineFunction entry.2 with
  | some entry => rfl
  | none =>
    by_cases hname : name = name'
    · cases hasync : isCoroutineFunction candidate <;> simp [hname, hasync]
    · simp [hname]

/-- An offer takes the name if it is the first async one. -/
theorem get_afterCall_decorator (h : ∀ name, registry.get name = firstOffer isCoroutineFunction offers name)
    (name' : PyStr) : (registry.afterCall (registry.decorator isCoroutineFunction name candidate)).get name' =
      firstOffer isCoroutineFunction (offers ++ [(name, candidate)]) name' := by
  rw [firstOffer_concat, ← h, decorator]
  cases hasync : isCoroutineFunction candidate with
  | false => simp [afterCall]
  | true =>
    rw [if_neg (by simp)]
    cases htaken : registry.get name with
    | none =>
      rw [Option.isSome_none, if_neg (by simp), afterCall, get_concat]
      simp
    | some handler =>
      rw [Option.isSome_some, if_pos rfl, afterCall]
      by_cases hname : name = name'
      · subst hname
        rw [htaken, Option.some_or]
      · simp [hname]

/-- Every call keeps the handlers the first offers. -/
theorem get_step (h : ∀ name, registry.get name = firstOffer isCoroutineFunction offers name)
    (hs : registry.step isCoroutineFunction call = some registry') (name' : PyStr) :
    registry'.get name' = firstOffer isCoroutineFunction (noteOffers offers registry call registry') name' := by
  cases call with
  | register name handler =>
    obtain rfl := Option.some.inj hs
    have hquiet (hoffer : registry.offer (.register name handler) = none) :
        noteOffers offers registry (.register name handler)
          (registry.afterCall (registry.register isCoroutineFunction name handler)) = offers := by
      rw [noteOffers, hoffer, Option.toList_none, List.append_nil]
    by_cases hname : name = []
    · have hraises : registry.register isCoroutineFunction name handler =
          .error (validationError (ofString "Handler name is required")) := if_pos hname
      rw [hquiet (if_pos hname), ← h, hraises]
      rfl
    · cases handler with
      | none =>
        rw [hquiet (if_neg hname), ← h, register, if_neg hname]
        rfl
      | some candidate =>
        have hoffer : registry.offer (.register name (some candidate)) = some (name, candidate) := if_neg hname
        rw [noteOffers, hoffer, register, if_neg hname]
        exact get_afterCall_decorator h name'
  | decorate i candidate =>
    obtain ⟨name, hdecorator, rfl⟩ := Option.map_eq_some_iff.mp hs
    have hoffer : registry.offer (.decorate i candidate) = some (name, candidate) := by
      rw [offer, hdecorator, Option.map_some]
    rw [noteOffers, hoffer]
    exact get_afterCall_decorator h name'

/-- What the registry holds, given what has been offered: the first async function for each name. A later offer for
the name raises, as does every offer that is not async or has no name. A job runs the first async function that has
been offered for its name, and fails for good if there is none. -/
structure HoldsFirst (isCoroutineFunction : Handler → Bool) (registry : HandlerRegistry Handler)
    (offers : List (PyStr × Handler)) : Prop where
  get : ∀ name, registry.get name = firstOffer isCoroutineFunction offers name
  unnamed : ∀ candidate, registry.register isCoroutineFunction [] candidate =
    .error (validationError (ofString "Handler name is required"))
  offered : ∀ name candidate, name ≠ [] → registry.register isCoroutineFunction name (some candidate) =
    if isCoroutineFunction candidate = false then .error (validationError (ofString "Handler must be async"))
    else if (firstOffer isCoroutineFunction offers name).isSome then
      .error (validationError (ofString "Handler name already registered"))
    else .ok { registry with handlers := registry.handlers ++ [(name, candidate)] }
  executed : ∀ behaviour job durationMs, registry.execute behaviour job durationMs =
    match firstOffer isCoroutineFunction offers (ofString job.name) with
    | some handler => handlerExecute (behaviour handler) durationMs
    | none => .ok (handlerResult .permanentFailure (some (ofString "KeyError"))
        (some (ofString "Handler not registered")) durationMs)

/-- In every program, whatever it registers in which order and however it keeps its decorators, the handler of a
name is the first async function that has been offered for it. -/
theorem holds_first (isCoroutineFunction : Handler → Bool) {registry : HandlerRegistry Handler}
    {offers : List (PyStr × Handler)}
    (h : Reaches (observed (step isCoroutineFunction) noteOffers) (empty, []) (registry, offers)) :
    HoldsFirst isCoroutineFunction registry offers := by
  have hget : ∀ name, registry.get name = firstOffer isCoroutineFunction offers name :=
    h.observed_invariant (fun _ _ => True)
      (I := fun registry offers => ∀ name, registry.get name = firstOffer isCoroutineFunction offers name)
      (fun _ => rfl) fun _ _ _ _ hI _ hs => get_step hI hs
  refine ⟨hget, fun candidate => if_pos rfl, fun name candidate hname => ?_, fun behaviour job durationMs => ?_⟩
  · rw [register, if_neg hname, ← hget]
    rfl
  · rw [execute, hget]
    cases firstOffer isCoroutineFunction offers (ofString job.name) <;> rfl

/-- The first of two handlers for one name stays, and a decorator for a taken name is refused. -/
def sentTwice : List (Call Bool) :=
  [.register (ofString "send") none, .decorate 0 false, .register (ofString "send") (some true), .decorate 0 true]

/-- Three offers for one name, of which the first one is no async function. -/
theorem holds_first_sentTwice : ∃ registry offers,
    run (observed (step fun handler : Bool => handler) noteOffers) (empty, []) sentTwice = some (registry, offers) ∧
      offers.length = 3 ∧ HoldsFirst (fun handler : Bool => handler) registry offers := by
  have hrun : (run (observed (step fun handler : Bool => handler) noteOffers) (empty, []) sentTwice).map
      (fun end_ => end_.2.length) = some 3 := by decide
  obtain ⟨⟨registry, offers⟩, hs, hlength⟩ := Option.map_eq_some_iff.mp hrun
  exact ⟨registry, offers, hs, hlength, holds_first _ (reaches_of_run hs)⟩

end HandlerRegistry

end PgRelay
