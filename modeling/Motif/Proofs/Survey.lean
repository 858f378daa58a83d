import Motif.Matching
import Motif.Proofs.Position

/-!
A match under survey. The survey of a pattern takes the course of the match and keeps a
list of what is to be seen on the way: each application of a pattern to a value, with the
spot of the value in the candidate, and each move of a walk over the items of a sequence.
The walk goes by numbers here. It looks items and slices up in the whole sequence, wherever
the numbers lead, and the survey is lost if there is no item with a number.
-/

namespace Motif

/-- Where a value stands in the candidate: how many sequences enclose it there, on how many of
these levels the search did not go a level down, and whether the value is a slice. A slice
stands where its sequence stands. -/
structure Spot where
  level : Nat
  uncharged : Nat
  slice : Bool
  deriving DecidableEq, Repr

namespace Spot

/-- The spot of the candidate itself. -/
def whole : Spot := ⟨0, 0, false⟩

/-- The spot of an item that is reached by going a level down. -/
def inside (spot : Spot) : Spot := { spot with level := spot.level + 1, slice := false }

/-- The spot of a slice. -/
def cut (spot : Spot) : Spot := { spot with slice := true }

/-- The spot of an item that a repetition reaches. For the items of a slice, the search has gone
a level down already, and otherwise it does not. -/
def each (spot : Spot) : Spot where
  level := spot.level + 1
  uncharged := if spot.slice then spot.uncharged else spot.uncharged + 1
  slice := false

end Spot

/-- A pattern that is applied to a value, with the depth of the search at that point. -/
structure Visit where
  pattern : Pattern Value
  spot : Spot
  value : Value
  depth : Int

namespace Sequence

/-- What a walk does with the items of a sequence. -/
inductive Move where
  /-- The walk comes to a chunk with a number of items behind it. -/
  | reach (chunk : Nat) (item : Int)
  /-- A fixed chunk reads the item with a number. -/
  | read (item : Int)
  /-- A repeated chunk takes a piece, as the decision says. -/
  | take (decision : Decision) (piece : List Value)
  /-- From an item on, a repeated chunk has tried some lengths, one after the other. The later
  chunks need so many items each. -/
  | tried (repetition : Repetition) (needs : List Nat) (item : Int) (lengths : List Int)

end Sequence

/-- What is to be seen in a match. -/
inductive Sight where
  | applied (visit : Visit)
  | moved (items : List Value) (move : Sequence.Move)

/-- What a survey ends with. Without an outcome, it was lost. -/
structure Seen where
  outcome : Option Outcome
  search : Search
  sights : List Sight

/-- Put earlier sights in front. -/
def Seen.after (earlier : List Sight) (seen : Seen) : Seen :=
  { seen with sights := earlier ++ seen.sights }

abbrev Survey := Search → Seen

namespace Survey

/-- A run in which there is nothing to see. -/
def ofRun (run : Run) : Survey := fun s => ⟨some (run s).1, (run s).2, []⟩

/-- There is no item where one was looked up. -/
def lost : Survey := fun s => ⟨none, s, []⟩

def seeing (sight : Search → Sight) (body : Survey) : Survey := fun s =>
  (body s).after [sight s]

def andThen (first : Survey) (next : Captures → Survey) : Survey := fun s =>
  match (first s).outcome with
  | some (.matched captures) => (next captures (first s).search).after (first s).sights
  | _ => first s

def orElse (first second : Survey) : Survey := fun s =>
  match (first s).outcome with
  | some .noMatch => (second (first s).search).after (first s).sights
  | _ => first s

def counted (body : Survey) : Survey := fun s =>
  match s.step with
  | (some reason, s) => ⟨some (.aborted reason), s, []⟩
  | (none, s) => body s

def nested (body : Survey) : Survey := fun s =>
  match s.enter with
  | (some reason, s) => ⟨some (.aborted reason), s, []⟩
  | (none, s) => { body s with search := (body s).search.leave }

def noting (d : Decision) (body : Survey) : Survey := fun s => body (s.note d)

def firstOf {α : Type} (ways : List α) (survey : α → Survey) : Survey :=
  match ways with
  | [] => ofRun Run.fail
  | way :: rest => orElse (survey way) (firstOf rest survey)

def inTurn {α : Type} (parts : List α) (survey : α → Captures → Survey) (captures : Captures) :
    Survey :=
  match parts with
  | [] => ofRun (Run.succeed captures)
  | part :: rest => andThen (survey part captures) (inTurn rest survey)

/-- The ways that are tried until one of them does not fail to match. -/
def tried {α : Type} (ways : List α) (survey : α → Survey) (s : Search) : List α :=
  match ways with
  | [] => []
  | way :: rest =>
    match (survey way s).outcome with
    | some .noMatch => way :: tried rest survey (survey way s).search
    | _ => [way]

/-- Go on from what was looked up. -/
def lookUp {α : Type} (found : Option α) (next : α → Survey) : Survey :=
  match found with
  | some a => next a
  | none => lost

end Survey

/-- A pattern as the survey of a sequence uses it. -/
structure Surveyor where
  repetition? : Option Repetition
  bind : Spot → Value → Captures → Survey

namespace Sequence

open Survey

/-- Walk chunks and items from the chunk and the item with the given numbers. The list `tails`
says how many items are needed from each chunk on. -/
def submatch (tails : List Nat) (form : Form) (spot : Spot) (xs : List Value) :
    Nat → Int → List (Chunk Surveyor) → Captures → Survey
  | ci, xi, [], captures =>
    seeing (fun _ => .moved xs (.reach ci xi)) <|
      ofRun (Run.guard (decide ((xs.length : Int) ≤ xi)) captures)
  | ci, xi, .fixed surveyors :: rest, captures =>
    let width := surveyors.length
    seeing (fun _ => .moved xs (.reach ci xi)) <| counted <|
      if (xs.length : Int) - xi < width then
        noting (.fixed ci xi.toNat width false) (ofRun Run.fail)
      else
        andThen
          (orElse
            (inTurn surveyors.zipIdx (fun part captures =>
              seeing (fun _ => .moved xs (.read (xi + part.2))) <|
                lookUp (Position.item? xs (xi + part.2)) fun item =>
                  part.1.bind spot.inside item captures) captures)
            (noting (.fixed ci xi.toNat width false) (ofRun Run.fail)))
          fun captures => noting (.fixed ci xi.toNat width true)
            (submatch tails form spot xs (ci + 1) (xi + width) rest captures)
  | ci, xi, .repeated surveyor repetition :: rest, captures =>
    seeing (fun _ => .moved xs (.reach ci xi)) <| counted <|
      lookUp tails[ci + 1]? fun needed =>
        let lengths := repetition.countedLengths ((xs.length : Int) - xi - needed)
        let attempt : Int → Survey := fun take =>
          let piece := Position.slice xs xi (xi + take)
          let decision : Decision := .repeated ci xi.toNat take.toNat repetition.mode
          noting decision <| seeing (fun _ => .moved xs (.take decision piece)) <|
            andThen (surveyor.bind spot.cut (.seq form piece) captures) fun captures =>
              submatch tails form spot xs (ci + 1) (xi + take) rest captures
        seeing (fun s => .moved xs
            (.tried repetition (rest.map Chunk.least) xi (tried lengths attempt s))) <|
          firstOf lengths attempt

end Sequence

/-- Match every item of a sequence whose length the bounds allow. -/
def surveyEach (bounds : Option Bounds) (bind : Value → Captures → Survey) (v : Value)
    (captures : Captures) : Survey :=
  match v.items? with
  | none => .ofRun Run.fail
  | some (_, items) =>
    if Bounds.allow bounds items.length then .inTurn items bind captures else .ofRun Run.fail

namespace Pattern

open Survey

mutual

/-- The survey of a pattern that is applied to a value in a spot. -/
def survey (p : Pattern Value) (spot : Spot) (v : Value) (captures : Captures) : Survey :=
  seeing (fun s => .applied ⟨p, spot, v, s.depth⟩) <|
    match p with
    | .wildcard => ofRun (Run.succeed captures)
    | .literal expected => ofRun (Run.guard (expected.strictlyEqual v) captures)
    | .typeCheck kind => ofRun (Run.guard (v.kind == kind.kind) captures)
    | .alternation options =>
      firstOf (surveyors options) fun option => option.bind spot v captures
    | .sequence elements =>
      match v.items? with
      | none => ofRun Run.fail
      | some (form, items) =>
        let chunks := Chunk.cut Surveyor.repetition? (surveyors elements)
        nested (Sequence.submatch (Chunk.tailMinimums chunks) form spot items 0 0 chunks captures)
    | .repeated inner _ bounds =>
      surveyEach bounds (fun item => survey inner spot.each item) v captures
    | .arrayOf inner bounds =>
      nested (surveyEach bounds (fun item => survey inner spot.inside item) v captures)
    | .named label inner =>
      andThen (survey inner spot v captures) fun captures =>
        ofRun (Run.succeed (captures.put label v))
    | .unspecified _ => ofRun (Run.abort .unspecified)
    | .misfit flaw value => ofRun (Run.abort (.misfit flaw value.typeName))
    | .choiceFrom _ options =>
      firstOf (surveyors options) fun option => option.bind spot v captures
termination_by structural p

def surveyors : List (Pattern Value) → List Surveyor
  | [] => []
  | p :: rest => ⟨p.repetition?, survey p⟩ :: surveyors rest
termination_by structural ps => ps

end

/-- The survey of a whole match. -/
def surveyed (p : Pattern Value) (v : Value) (limits : Limits) (tracer : Option Tracer) : Seen :=
  p.survey .whole v [] (Search.fresh limits (tracer.map (·.note .started)))

end Pattern

/-- What is reported of a match whose survey was not lost. -/
def Seen.report? (seen : Seen) : Option Report :=
  seen.outcome.map fun outcome => ⟨outcome, seen.search.steps,
    seen.search.tracer.map (·.note (.ended outcome.isMatched seen.search.steps))⟩

end Motif
