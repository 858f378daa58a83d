import Motif.Limits.Basic
import Motif.Trace.Tracer

/-!
The state of a search and the ways to put searches together. A run takes the
captures made so far inside it and the state before it, and yields an outcome
and the state after it. Captures travel as values, so what is captured on a
branch that is given up later is dropped with that branch. The counters do not:
every attempted chunk stays counted.
-/

namespace Motif

/-- What has been captured, in the order of the first capture of each label. -/
abbrev Captures := Entries String Value

inductive Abort where
  | maxSteps (limit : Count)
  | maxDepth (limit : Count)
  /-- A pattern of unspecified kind was met. -/
  | unspecified
  /-- A value was met where a pattern should be. -/
  | misfit (flaw : Flaw) (typeName : String)
  deriving DecidableEq, Repr

def Abort.message : Abort → String
  | .maxSteps limit => "match exceeded max_steps=" ++ limit.text
  | .maxDepth limit => "match exceeded max_depth=" ++ limit.text
  | .unspecified => ""
  | .misfit .notPattern typeName => "'" ++ typeName ++ "' object has no attribute 'bind'"
  | .misfit .notIterable typeName => "'" ++ typeName ++ "' object is not iterable"

inductive Outcome where
  | matched (captures : Captures)
  | noMatch
  | aborted (reason : Abort)

namespace Outcome

def isMatched : Outcome → Bool
  | .matched _ => true
  | _ => false

end Outcome

/-- The state of a search. The depth may fall below zero, since a search can be told to
leave what it never entered. -/
structure Search where
  limits : Limits
  tracer : Option Tracer
  steps : Nat
  depth : Int

/-- A search from its state to an outcome and the state after it. -/
abbrev Run := Search → Outcome × Search

namespace Search

def fresh (limits : Limits) (tracer : Option Tracer) : Search := ⟨limits, tracer, 0, 0⟩

/-- Count an attempted chunk. The attempt past the limit is counted too. -/
def step (s : Search) : Option Abort × Search :=
  let after := { s with steps := s.steps + 1 }
  if s.limits.maxSteps.value ≠ 0 ∧ s.limits.maxSteps.value < after.steps then
    (some (.maxSteps s.limits.maxSteps), after)
  else (none, after)

/-- Go one level down. A level too deep stays counted. -/
def enter (s : Search) : Option Abort × Search :=
  let after := { s with depth := s.depth + 1 }
  if (s.limits.maxDepth.value : Int) < after.depth then
    (some (.maxDepth s.limits.maxDepth), after)
  else (none, after)

def leave (s : Search) : Search := { s with depth := s.depth - 1 }

/-- Record a decision, if the search is watched. -/
def note (s : Search) (d : Decision) : Search := { s with tracer := s.tracer.map (·.note d) }

@[simp] theorem limits_step (s : Search) : s.step.2.limits = s.limits := by
  simp only [step]
  split <;> rfl

@[simp] theorem steps_step (s : Search) : s.step.2.steps = s.steps + 1 := by
  simp only [step]
  split <;> rfl

@[simp] theorem depth_step (s : Search) : s.step.2.depth = s.depth := by
  simp only [step]
  split <;> rfl

@[simp] theorem limits_enter (s : Search) : s.enter.2.limits = s.limits := by
  simp only [enter]
  split <;> rfl

@[simp] theorem steps_enter (s : Search) : s.enter.2.steps = s.steps := by
  simp only [enter]
  split <;> rfl

@[simp] theorem depth_enter (s : Search) : s.enter.2.depth = s.depth + 1 := by
  simp only [enter]
  split <;> rfl

end Search

namespace Run

@[inline] def succeed (captures : Captures) : Run := fun s => (.matched captures, s)

@[inline] def fail : Run := fun s => (.noMatch, s)

@[inline] def abort (reason : Abort) : Run := fun s => (.aborted reason, s)

/-- Succeed without further captures if a test holds. -/
@[inline] def guard (holds : Bool) (captures : Captures) : Run :=
  if holds then succeed captures else fail

/-- Go on from the captures of a first run, if it matches. -/
@[inline] def andThen (first : Run) (next : Captures → Run) : Run := fun s =>
  match first s with
  | (.matched captures, s) => next captures s
  | (.noMatch, s) => (.noMatch, s)
  | (.aborted reason, s) => (.aborted reason, s)

/-- Take another way, if the first run does not match. An aborted run is not retried. -/
@[inline] def orElse (first second : Run) : Run := fun s =>
  match first s with
  | (.matched captures, s) => (.matched captures, s)
  | (.noMatch, s) => second s
  | (.aborted reason, s) => (.aborted reason, s)

@[inline] def counted (body : Run) : Run := fun s =>
  match s.step with
  | (some reason, s) => (.aborted reason, s)
  | (none, s) => body s

/-- Run one level down, and come up again whatever the outcome. -/
@[inline] def nested (body : Run) : Run := fun s =>
  match s.enter with
  | (some reason, s) => (.aborted reason, s)
  | (none, s) =>
    let (outcome, s) := body s
    (outcome, s.leave)

@[inline] def noting (d : Decision) (body : Run) : Run := fun s => body (s.note d)

def firstOf {α : Type} (ways : List α) (run : α → Run) : Run := fun s =>
  match ways with
  | [] => fail s
  | way :: rest => orElse (run way) (firstOf rest run) s

/-- One run after the other, each from the captures of the one before. -/
def inTurn {α : Type} (parts : List α) (run : α → Captures → Run) (captures : Captures) : Run :=
  fun s =>
    match parts with
    | [] => succeed captures s
    | part :: rest => andThen (run part captures) (fun captures => inTurn rest run captures) s

end Run

end Motif
