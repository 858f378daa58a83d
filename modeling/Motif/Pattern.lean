/-!
Patterns over values of a type `α`. A pattern says what shape a value has:
anything, one exact value, a primitive kind, one of several options, a sequence
of elements, a run of elements, an array of alike elements, or any of these
under a label. The type of literals is a parameter, so that what is said about
shapes here does not depend on what values are.
-/

namespace Motif

/-- Which length a repetition prefers inside a sequence. -/
inductive Mode where
  | greedy
  | lazy
  deriving DecidableEq, Repr, Inhabited

namespace Mode

def name : Mode → String
  | .greedy => "greedy"
  | .lazy => "lazy"

def ofName? (name : String) : Option Mode :=
  if name = "greedy" then some .greedy
  else if name = "lazy" then some .lazy
  else none

end Mode

inductive Primitive where
  | number
  | string
  | boolean
  deriving DecidableEq, Repr, Inhabited

namespace Primitive

def name : Primitive → String
  | .number => "number"
  | .string => "string"
  | .boolean => "boolean"

def ofName? (name : String) : Option Primitive :=
  if name = "number" then some .number
  else if name = "string" then some .string
  else if name = "boolean" then some .boolean
  else none

end Primitive

/-- How many elements a run may have. Either both ends are given or there are no bounds. -/
structure Bounds where
  min : Nat
  max : Nat
  min_le_max : min ≤ max
  deriving DecidableEq, Repr

namespace Bounds

/-- Whether a length is allowed; without bounds every length is. -/
def allow (bounds : Option Bounds) (length : Nat) : Bool :=
  match bounds with
  | none => true
  | some b => b.min ≤ length && length ≤ b.max

def least : Option Bounds → Nat
  | none => 0
  | some b => b.min

end Bounds

/-- What is wrong with a value that stands in a pattern's place. -/
inductive Flaw where
  | notPattern
  /-- The value should give the options of a choice, and nothing comes out of it. -/
  | notIterable
  deriving DecidableEq, Repr

/-- Patterns. The last three are defective: they can stand inside others, and what is wrong
with them shows only when they are matched, rendered or written down.

* A pattern whose kind was left open has a tag, by which it can be told from others.
* A misfit is a value in a pattern's place.
* A choice may take its options from something else than a tuple; it keeps what they were
  taken from. -/
inductive Pattern (α : Type) where
  | wildcard
  | literal (value : α)
  | typeCheck (kind : Primitive)
  | alternation (options : List (Pattern α))
  | sequence (elements : List (Pattern α))
  | repeated (inner : Pattern α) (mode : Mode) (bounds : Option Bounds)
  | arrayOf (inner : Pattern α) (bounds : Option Bounds)
  | named (label : String) (inner : Pattern α)
  | unspecified (tag : Nat)
  | misfit (flaw : Flaw) (value : α)
  | choiceFrom (source : α) (options : List (Pattern α))
  deriving Inhabited

/-- What a sequence needs to know of a repetition in order to share out its elements. -/
structure Repetition where
  mode : Mode
  bounds : Option Bounds
  deriving DecidableEq, Repr

namespace Repetition

/-- The fewest elements that the repetition accepts. -/
def least (r : Repetition) : Nat := Bounds.least r.bounds

end Repetition

namespace Pattern

variable {α β : Type}

/-- The repetition under any number of labels. -/
def repetition? : Pattern α → Option Repetition
  | .repeated _ mode bounds => some ⟨mode, bounds⟩
  | .named _ inner => repetition? inner
  | _ => none

mutual

/-- Replace every value inside a pattern by its image. -/
def map (f : α → β) : Pattern α → Pattern β
  | .wildcard => .wildcard
  | .literal value => .literal (f value)
  | .typeCheck kind => .typeCheck kind
  | .alternation options => .alternation (mapAll f options)
  | .sequence elements => .sequence (mapAll f elements)
  | .repeated inner mode bounds => .repeated (map f inner) mode bounds
  | .arrayOf inner bounds => .arrayOf (map f inner) bounds
  | .named label inner => .named label (map f inner)
  | .unspecified tag => .unspecified tag
  | .misfit flaw value => .misfit flaw (f value)
  | .choiceFrom source options => .choiceFrom (f source) (mapAll f options)
termination_by structural p => p

def mapAll (f : α → β) : List (Pattern α) → List (Pattern β)
  | [] => []
  | p :: rest => map f p :: mapAll f rest
termination_by structural ps => ps

end

end Pattern

end Motif
