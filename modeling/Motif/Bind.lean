import Motif.Chunk
import Motif.Search
import Motif.Value.Equality

/-!
Matching a value against a pattern, from given captures and inside a given
search. A sequence pattern walks its chunks and the items together: a fixed chunk
takes as many items as it is wide, a repeated chunk tries one length after the
other in the order its mode prefers and goes on with the rest, and the walk ends
well when chunks and items run out together.

Which lengths a repeated chunk tries is a policy, so that the search can be
compared with one that tries them all. `Repetition.lengths` is the policy in
use: it leaves out the lengths that the bounds refuse and those that would leave
the remaining chunks too few items.
-/

namespace Motif

namespace Repetition

/-- The lengths that the bounds allow when `available` items may be taken, in ascending
order. -/
def ascending (r : Repetition) (available : Int) : List Nat :=
  let high : Int := match r.bounds with
    | none => available
    | some bounds => min available bounds.max
  (List.range (high + 1 - r.least).toNat).map (· + r.least)

/-- The same lengths, the preferred ones first. -/
def takes (r : Repetition) (available : Int) : List Nat :=
  match r.mode with
  | .greedy => (r.ascending available).reverse
  | .lazy => r.ascending available

/-- The lengths worth trying with `remaining` items, of which the later chunks need at least
`needed`. -/
def lengths (r : Repetition) (remaining needed : Nat) : List Nat :=
  r.takes ((remaining : Int) - needed)

theorem mem_ascending (r : Repetition) (available : Int) (length : Nat) :
    length ∈ r.ascending available ↔
      Bounds.allow r.bounds length ∧ (length : Int) ≤ available := by
  obtain ⟨mode, bounds⟩ := r
  cases bounds with
  | none =>
    simp only [ascending, least, Bounds.least, Bounds.allow, List.mem_map, List.mem_range,
      true_and]
    constructor
    · rintro ⟨offset, within, rfl⟩
      omega
    · intro fits
      exact ⟨length, by omega, by omega⟩
  | some b =>
    simp only [ascending, least, Bounds.least, Bounds.allow, List.mem_map, List.mem_range,
      Bool.and_eq_true, decide_eq_true_eq]
    constructor
    · rintro ⟨offset, within, rfl⟩
      omega
    · rintro ⟨⟨low, high⟩, fits⟩
      exact ⟨length - b.min, by omega, by omega⟩

/-- A length is tried when the bounds allow it and there are items for it. -/
theorem mem_takes (r : Repetition) (available : Int) (length : Nat) :
    length ∈ r.takes available ↔ Bounds.allow r.bounds length ∧ (length : Int) ≤ available := by
  rw [← mem_ascending]
  unfold takes
  split
  · rw [List.mem_reverse]
  · rfl

end Repetition

/-- The lengths to try for a repetition, by the number of remaining items and the number that
the later chunks need. -/
abbrev LengthPolicy := Repetition → Nat → Nat → List Nat

/-- A pattern as a sequence uses it: how it repeats, and how it binds a value. -/
structure Matcher where
  repetition? : Option Repetition
  bind : Value → Captures → Run

namespace Sequence

/-- Walk chunks and items from the chunk and the item with the given numbers. -/
def walk (lengths : LengthPolicy) (form : Form) :
    Nat → List (Chunk Matcher) → Nat → List Value → Captures → Run
  | _, [], _, items, captures => Run.guard items.isEmpty captures
  | ci, .fixed matchers :: rest, xi, items, captures =>
    let width := matchers.length
    Run.counted <|
      if items.length < width then Run.noting (.fixed ci xi width false) Run.fail
      else
        Run.andThen
          (Run.orElse
            (Run.inTurn (matchers.zip items) (fun part => part.1.bind part.2) captures)
            (Run.noting (.fixed ci xi width false) Run.fail))
          fun captures =>
            Run.noting (.fixed ci xi width true)
              (walk lengths form (ci + 1) rest (xi + width) (items.drop width) captures)
  | ci, .repeated matcher repetition :: rest, xi, items, captures =>
    Run.counted <|
      Run.firstOf (lengths repetition items.length (Chunk.leastTotal rest)) fun take =>
        Run.noting (.repeated ci xi take repetition.mode) <|
          Run.andThen (matcher.bind (.seq form (items.take take)) captures) fun captures =>
            walk lengths form (ci + 1) rest (xi + take) (items.drop take) captures

end Sequence

/-- Match every item of a sequence whose length the bounds allow. -/
def bindEach (bounds : Option Bounds) (bind : Value → Captures → Run) (v : Value)
    (captures : Captures) : Run :=
  match v.items? with
  | none => Run.fail
  | some (_, items) =>
    if Bounds.allow bounds items.length then Run.inTurn items bind captures else Run.fail

namespace Pattern

mutual

/-- Match a value, adding to the captures made so far. A label is bound after what stands
under it, and binding it again changes its value but not its place. -/
def bindWith (lengths : LengthPolicy) : Pattern Value → Value → Captures → Run
  | .wildcard, _, captures => Run.succeed captures
  | .literal expected, v, captures => Run.guard (expected.strictlyEqual v) captures
  | .typeCheck kind, v, captures => Run.guard (v.kind == kind.kind) captures
  | .alternation options, v, captures =>
    Run.firstOf (matchersWith lengths options) fun option => option.bind v captures
  | .sequence elements, v, captures =>
    match v.items? with
    | none => Run.fail
    | some (form, items) =>
      Run.nested (Sequence.walk lengths form 0
        (Chunk.cut Matcher.repetition? (matchersWith lengths elements)) 0 items captures)
  | .repeated inner _ bounds, v, captures => bindEach bounds (bindWith lengths inner) v captures
  | .arrayOf inner bounds, v, captures =>
    Run.nested (bindEach bounds (bindWith lengths inner) v captures)
  | .named label inner, v, captures =>
    Run.andThen (bindWith lengths inner v captures) fun captures =>
      Run.succeed (captures.put label v)
  | .unspecified _, _, _ => Run.abort .unspecified
  | .misfit flaw value, _, _ => Run.abort (.misfit flaw value.typeName)
  | .choiceFrom _ options, v, captures =>
    Run.firstOf (matchersWith lengths options) fun option => option.bind v captures
termination_by structural p => p

def matchersWith (lengths : LengthPolicy) : List (Pattern Value) → List Matcher
  | [] => []
  | p :: rest => ⟨p.repetition?, bindWith lengths p⟩ :: matchersWith lengths rest
termination_by structural ps => ps

end

def bind (p : Pattern Value) (v : Value) (captures : Captures) : Run :=
  bindWith Repetition.lengths p v captures

end Pattern

end Motif
