import Motif.UsageError

/-!
Building patterns from values. Any value stands for a pattern: a pattern for
itself, a bare constructor for the pattern it makes, a list or tuple for the
sequence of its items, and everything else for the literal. Arguments that are
not patterns are checked where a pattern takes them in, which is why no pattern
with impossible bounds or a label that is no text can be built.

A value can also be put into a pattern as it is. What is no pattern then becomes a
misfit, which is noticed only when the pattern is used.
-/

namespace Motif

def Marker.pattern : Marker → Pattern Value
  | .wildcard => .wildcard
  | .primitive kind => .typeCheck kind

namespace Construct

mutual

/-- The pattern that a value stands for. -/
def ofValue : Value → Pattern Value
  | .pattern p => p
  | .marker m => m.pattern
  | .seq _ items => .sequence (ofValues items)
  | .null => .literal .null
  | .bool b => .literal (.bool b)
  | .int n => .literal (.int n)
  | .float x => .literal (.float x)
  | .str s => .literal (.str s)
  | .bytes bs => .literal (.bytes bs)
  | .dict entries => .literal (.dict entries)
  | .object name => .literal (.object name)
termination_by structural v => v

def ofValues : List Value → List (Pattern Value)
  | [] => []
  | v :: rest => ofValue v :: ofValues rest
termination_by structural vs => vs

end

/-- An end of the bounds as a natural number. Truth values are no numbers here. -/
def boundEnd (which : BoundEnd) : Value → Except UsageError Nat
  | .int (.ofNat n) => .ok n
  | given => .error (.bound which given)

/-- Bounds from two values: both absent, or two natural numbers in order. -/
def bounds (min max : Value) : Except UsageError (Option Bounds) :=
  match min, max with
  | .null, .null => .ok none
  | .null, _ | _, .null => .error (.unpairedBounds min max)
  | _, _ => do
    let low ← boundEnd .min min
    let high ← boundEnd .max max
    if ordered : low ≤ high then .ok (some ⟨low, high, ordered⟩)
    else .error (.reversedBounds low high)

def typeCheck (kind : Value) : Except UsageError (Pattern Value) :=
  match kind with
  | .str name =>
    match Primitive.ofName? name with
    | some kind => .ok (.typeCheck kind)
    | none => .error (.kind (.str name))
  | _ => .error (.kind kind)

def mode : Value → Except UsageError Mode
  | .str name =>
    match Mode.ofName? name with
    | some mode => .ok mode
    | none => .error (.mode (.str name))
  | given => .error (.mode given)

/-- A repetition of a pattern. The preference is checked before the bounds. -/
def repetition (inner : Pattern Value) (preference min max : Value) :
    Except UsageError (Pattern Value) := do
  let mode ← mode preference
  let bounds ← bounds min max
  return .repeated inner mode bounds

def array (inner : Pattern Value) (min max : Value) : Except UsageError (Pattern Value) := do
  let bounds ← bounds min max
  return .arrayOf inner bounds

def labelled (label : Value) (inner : Pattern Value) : Except UsageError (Pattern Value) :=
  match label with
  | .str label => .ok (.named label inner)
  | _ => .error (.label label)

def greedy (inner min max : Value) : Except UsageError (Pattern Value) :=
  repetition (ofValue inner) (.str Mode.greedy.name) min max

def lazy (inner min max : Value) : Except UsageError (Pattern Value) :=
  repetition (ofValue inner) (.str Mode.lazy.name) min max

def arrayOf (inner min max : Value) : Except UsageError (Pattern Value) :=
  array (ofValue inner) min max

def named (label inner : Value) : Except UsageError (Pattern Value) :=
  labelled label (ofValue inner)

def alternation (options : List Value) : Pattern Value := .alternation (ofValues options)

def sequence (elements : List Value) : Pattern Value := .sequence (ofValues elements)

/-- What stands in a pattern's place when a value is put there as it is. -/
def part : Value → Pattern Value
  | .pattern p => p
  | v => .misfit .notPattern v

/-- A choice whose options are taken from a value as they are. They are looked for only when
the choice is used, so what cannot be listed becomes the only option. -/
def choiceOf : Value → Pattern Value
  | .seq .tuple options => .alternation (options.map part)
  | source =>
    match source.iterate? with
    | some options => .choiceFrom source (options.map part)
    | none => .choiceFrom source [.misfit .notIterable source]

/-- A sequence of what a value lists, as it is. -/
def sequenceOf? (source : Value) : Option (Pattern Value) :=
  source.iterate?.map fun elements => .sequence (elements.map part)

end Construct

end Motif
