import Motif.Construct
import Motif.Matching

/-!
Dispatch. Clauses are written as a flat list that alternates patterns and handlers. The list is
checked as a whole before anything is matched. The first clause whose pattern matches answers, with
its captures; if none does, the fallback answers, with the value itself. At most one handler is
called.

Handlers may be of any kind that can be called. A call answers or fails in its own way and may
change anything else while it runs, so replies, errors and the state of everything else are
parameters here. A pattern can be called as well, and so can a bare constructor, though it never
takes the argument.
-/

namespace Motif

/-- Everything that a call may change: who observes matches, and whatever else there is. -/
structure World (σ : Type) where
  observation : Observation
  state : σ

abbrev Callable (σ ε ρ : Type) := Value → World σ → Except ε ρ × World σ

/-- The limits of matches for which none are given, and what their outcomes are among the replies
and errors of callables. -/
structure Setting (ε ρ : Type) where
  limits : Limits
  captured : Captures → ρ
  noMatch : ρ
  aborted : Abort → ε
  /-- The error of a bare constructor that is called with an argument. -/
  superfluousArgument : Marker → ε

variable {η σ ε ρ : Type}

namespace World

/-- Match a value without a tracer of its own. -/
def matchAgainst (w : World σ) (p : Pattern Value) (v : Value) (limits : Limits) :
    Outcome × World σ :=
  let (outcome, observation) := w.observation.matchAgainst p v limits
  (outcome, { w with observation })

end World

namespace Setting

/-- A pattern as a callable: it is matched against the argument. -/
def callPattern (setting : Setting ε ρ) (p : Pattern Value) : Callable σ ε ρ := fun argument w =>
  match w.matchAgainst p argument setting.limits with
  | (.matched captures, w) => (.ok (setting.captured captures), w)
  | (.noMatch, w) => (.ok setting.noMatch, w)
  | (.aborted reason, w) => (.error (setting.aborted reason), w)

/-- A bare constructor as a callable. -/
def callMarker (setting : Setting ε ρ) (m : Marker) : Callable σ ε ρ := fun _ w =>
  (.error (setting.superfluousArgument m), w)

end Setting

/-- A kind of handlers: how they are called, and which of them stand for the patterns and for the
bare constructors that are used as handlers. -/
structure HandlerKind (η σ ε ρ : Type) extends Setting ε ρ where
  call : η → Callable σ ε ρ
  ofPattern : Pattern Value → η
  ofMarker : Marker → η
  call_ofPattern : ∀ p, call (ofPattern p) = toSetting.callPattern p
  call_ofMarker : ∀ m, call (ofMarker m) = toSetting.callMarker m

/-- Callables, as they are. -/
def Setting.callables (setting : Setting ε ρ) : HandlerKind (Callable σ ε ρ) σ ε ρ where
  toSetting := setting
  call f := f
  ofPattern := setting.callPattern
  ofMarker := setting.callMarker
  call_ofPattern _ := rfl
  call_ofMarker _ := rfl

namespace Dispatch

/-- An item of a flat list: a value, or a handler that is no value. -/
inductive Item (η : Type) where
  | value (v : Value)
  | handler (h : η)

namespace Item

/-- The pattern that an item stands for. A handler stands for one that nothing matches. -/
def pattern : Item η → Pattern Value
  | .value v => Construct.ofValue v
  | .handler _ => .alternation []

/-- The handler that an item is, if it can be called. -/
def handler? (kind : HandlerKind η σ ε ρ) : Item η → Except Value η
  | .handler h => .ok h
  | .value (.pattern p) => .ok (kind.ofPattern p)
  | .value (.marker m) => .ok (kind.ofMarker m)
  | .value v => .error v

end Item

structure Clause (η : Type) where
  pattern : Pattern Value
  handler : η

/-- Clauses from items that come in pairs, numbered from `index`. -/
def pairUp (kind : HandlerKind η σ ε ρ) (index : Nat) :
    List (Item η) → Except UsageError (List (Clause η))
  | pattern :: handler :: rest =>
    match handler.handler? kind with
    | .error given => .error (.handler index given)
    | .ok handler => do
      let clauses ← pairUp kind (index + 1) rest
      return ⟨pattern.pattern, handler⟩ :: clauses
  | _ => .ok []

/-- Clauses from a flat list. That an item is left over is found first, then the first handler that
cannot be called. -/
def ofItems (kind : HandlerKind η σ ε ρ) (items : List (Item η)) :
    Except UsageError (List (Clause η)) :=
  if items.length % 2 ≠ 0 then .error (.oddClauses items.length) else pairUp kind 0 items

/-- Who answers. -/
inductive Selection (η : Type) where
  | clause (index : Nat) (handler : η) (captures : Captures)
  | fallback (handler : η)
  | nobody
  /-- A clause's match was given up, and with it the dispatch. -/
  | aborted (reason : Abort)

/-- Select the first clause whose pattern matches, counted from `index`. If there is none, select
the fallback. -/
def selectFrom (limits : Limits) (fallback : Option η) (v : Value) :
    Nat → List (Clause η) → World σ → Selection η × World σ
  | _, [], w =>
    match fallback with
    | some handler => (.fallback handler, w)
    | none => (.nobody, w)
  | index, clause :: rest, w =>
    match w.matchAgainst clause.pattern v limits with
    | (.matched captures, w) => (.clause index clause.handler captures, w)
    | (.noMatch, w) => selectFrom limits fallback v (index + 1) rest w
    | (.aborted reason, w) => (.aborted reason, w)

/-- Call who was selected: the handler of a clause with the captures, the fallback with the value
itself. -/
def answer (kind : HandlerKind η σ ε ρ) (v : Value) :
    Selection η → World σ → Except ε ρ × World σ
  | .clause _ handler captures, w => kind.call handler (.record captures) w
  | .fallback handler, w => kind.call handler v w
  | .nobody, w => (.ok kind.noMatch, w)
  | .aborted reason, w => (.error (kind.aborted reason), w)

/-- Dispatch on a value to clauses that have been checked. -/
def run (kind : HandlerKind η σ ε ρ) (fallback : Option η) (v : Value) (clauses : List (Clause η))
    (w : World σ) : Except ε ρ × World σ :=
  let (selection, w) := selectFrom kind.limits fallback v 0 clauses w
  answer kind v selection w

/-- Dispatch on a value. A mistake in the list is found before anything else is done. -/
def dispatch (kind : HandlerKind η σ ε ρ) (items : List (Item η)) (fallback : Option η)
    (v : Value) (w : World σ) : Except UsageError (Except ε ρ) × World σ :=
  match ofItems kind items with
  | .error mistake => (.error mistake, w)
  | .ok clauses =>
    let (answer, w) := run kind fallback v clauses w
    (.ok answer, w)

/-- A callable that dispatches on its argument. The list is checked once and for all. -/
def dispatcher (kind : HandlerKind η σ ε ρ) (items : List (Item η)) (fallback : Option η) :
    Except UsageError (Callable σ ε ρ) := do
  let clauses ← ofItems kind items
  return fun v => run kind fallback v clauses

end Dispatch

end Motif
