import Motif.Sorting.Boundary

/-!
Merging two neighbouring runs. Elements are taken one by one while both runs win
in turn; as soon as one of them keeps winning, whole bursts are taken at once. How
many wins in a row it takes is the patience, which shrinks while bursts pay off and
grows when they no longer do, and which is handed on from one merge to the next.

The shorter run decides the direction: upwards from the least elements, or downwards
from the greatest. In both, elements that are equal stay in their given order.
-/

namespace Motif.Sorting

variable {α ε : Type}

inductive Direction where
  | up
  | down
  deriving DecidableEq, Repr

/-- A merge under way. Both runs, and what has been taken, are in the order in which the
direction takes elements; what has been taken is kept latest first. -/
structure Merging (α : Type) where
  taken : List α
  left : List α
  right : List α

namespace Merging

/-- Whether no comparison is needed any more. The very last element of a run is known to
close the merge. -/
def isSettled (direction : Direction) (m : Merging α) : Bool :=
  match direction with
  | .up => m.right.isEmpty || m.left.length ≤ 1
  | .down => m.left.isEmpty || m.right.length ≤ 1

def result (direction : Direction) (m : Merging α) : List α :=
  match direction with
  | .up => m.taken.reverse ++ (m.right ++ m.left)
  | .down => (m.taken.reverse ++ (m.left ++ m.right)).reverse

def takeLeft (m : Merging α) (count : Nat) : Merging α :=
  { m with taken := (m.left.take count).reverse ++ m.taken, left := m.left.drop count }

def takeRight (m : Merging α) (count : Nat) : Merging α :=
  { m with taken := (m.right.take count).reverse ++ m.taken, right := m.right.drop count }

def burst (direction : Direction) (boundary : Array α → Nat → Except ε Nat) (run : List α) :
    Except ε Nat :=
  match direction with
  | .up => boundary run.toArray 0
  | .down => do return run.length - (← boundary run.reverse.toArray (run.length - 1))

/-- Take all of the left run that goes before the head of the right one, then that head. -/
def leftBurst (before : Comparison α ε) (direction : Direction) (m : Merging α) :
    Except ε (Merging α × Nat) :=
  match m.isSettled direction, m.right with
  | false, head :: _ => do
    let count ← burst direction (boundaryAfter before head) m.left
    let m := m.takeLeft count
    return (if m.isSettled direction then m else m.takeRight 1, count)
  | _, _ => .ok (m, 0)

/-- Take all of the right run that goes before the head of the left one, then that head. -/
def rightBurst (before : Comparison α ε) (direction : Direction) (m : Merging α) :
    Except ε (Merging α × Nat) :=
  match m.isSettled direction, m.left with
  | false, head :: _ => do
    let count ← burst direction (boundaryBefore before head) m.right
    let m := m.takeRight count
    return (if m.isSettled direction then m else m.takeLeft 1, count)
  | _, _ => .ok (m, 0)

end Merging

/-- How a merge goes on: element by element, with the number of times that each run has won
in a row, or in bursts. -/
inductive Pace where
  | single (left right : Nat)
  | bursts
  deriving DecidableEq, Repr

/-- How many elements make a burst worth another one. -/
def leastBurst : Nat := 7

/-- Merge until the merge is settled. Each turn takes at least one element, so their number is
fuel enough. -/
def mergeFrom (before : Comparison α ε) (direction : Direction) :
    Nat → Nat → Pace → Merging α → Except ε (List α × Nat)
  | 0, patience, _, m => .ok (m.result direction, patience)
  | fuel + 1, patience, pace, m =>
    match m.isSettled direction, pace, m.left, m.right with
    | false, .single leftWins rightWins, left :: _, right :: _ => do
      if (← before right left) == (direction == .up) then
        let pace := if patience ≤ rightWins + 1 then .bursts else .single 0 (rightWins + 1)
        mergeFrom before direction fuel patience pace (m.takeRight 1)
      else
        let pace := if patience ≤ leftWins + 1 then .bursts else .single (leftWins + 1) 0
        mergeFrom before direction fuel patience pace (m.takeLeft 1)
    | false, .bursts, _, _ => do
      let (m, fromLeft) ← m.leftBurst before direction
      let (m, fromRight) ← m.rightBurst before direction
      if m.isSettled direction then return (m.result direction, patience)
      else if leastBurst ≤ fromLeft || leastBurst ≤ fromRight then
        mergeFrom before direction fuel (if 1 < patience then patience - 1 else patience) .bursts m
      else mergeFrom before direction fuel (patience + 1) (.single 0 0) m
    | _, _, _, _ => .ok (m.result direction, patience)

/-- Merge two runs of which it is known that the left one starts after the head of the right
one and ends after its last element. -/
def mergeOverlap (before : Comparison α ε) (patience : Nat) (left right : List α) :
    Except ε (List α × Nat) :=
  let fuel := left.length + right.length
  if left.length ≤ right.length then
    mergeFrom before .up fuel patience (.single 0 0) (Merging.takeRight ⟨[], left, right⟩ 1)
  else
    mergeFrom before .down fuel patience (.single 0 0)
      (Merging.takeLeft ⟨[], left.reverse, right.reverse⟩ 1)

/-- Merge two neighbouring runs. What of the left run precedes the right one stays, and so does
what of the right run follows the left one; only the overlap is merged. -/
def mergeRuns (before : Comparison α ε) (patience : Nat) (left right : List α) :
    Except ε (List α × Nat) :=
  match right with
  | [] => .ok (left, patience)
  | head :: _ => do
    let kept ← boundaryAfter before head left.toArray 0
    match (left.drop kept).getLast? with
    | none => return (left ++ right, patience)
    | some last =>
      let met ← boundaryBefore before last right.toArray (right.length - 1)
      if met = 0 then return (left ++ right, patience)
      else
        let (merged, patience) ← mergeOverlap before patience (left.drop kept) (right.take met)
        return (left.take kept ++ merged ++ right.drop met, patience)

end Motif.Sorting
