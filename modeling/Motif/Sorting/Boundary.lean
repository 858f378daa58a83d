import Motif.Sorting.Run

/-!
Where a run stops preceding an element. The search starts at a hint, widens its
distance from it two times and one at each turn, and closes in by halving, so that
a boundary near the hint is found with few comparisons.
-/

namespace Motif.Sorting

variable {α ε : Type}

/-- Widen a distance while a test goes on: the last distance at which it did, and the first
at which it did not, or `bound`. -/
def widen (goesOn : Nat → Except ε Bool) (bound : Nat) :
    Nat → Nat → Nat → Except ε (Nat × Nat)
  | 0, near, far => .ok (near, min far bound)
  | fuel + 1, near, far =>
    if far < bound then do
      if ← goesOn far then widen goesOn bound fuel far (2 * far + 1)
      else return (near, far)
    else .ok (near, bound)

/-- Close in on the first place from `low` to `high` at which a test fails. -/
def closeIn (test : Nat → Except ε Bool) : Nat → Nat → Nat → Except ε Nat
  | 0, low, _ => .ok low
  | fuel + 1, low, high =>
    if low < high then do
      let middle := low + (high - low) / 2
      if ← test middle then closeIn test fuel (middle + 1) high
      else closeIn test fuel low middle
    else .ok low

/-- How many elements of a run precede its boundary, by a test on elements, starting at the
place `hint`. -/
def boundary (precedes : α → Except ε Bool) (run : Array α) (hint : Nat) : Except ε Nat := do
  let test (place : Nat) : Except ε Bool :=
    match run[place]? with
    | some element => precedes element
    | none => .ok false
  if ← test hint then
    let (near, far) ←
      widen (fun distance => test (hint + distance)) (run.size - hint) run.size 0 1
    closeIn test run.size (hint + near + 1) (hint + far)
  else
    let (near, far) ←
      widen (fun distance => return !(← test (hint - distance))) (hint + 1) run.size 0 1
    closeIn test run.size (hint + 1 - far) (hint - near)

/-- How many elements of a run come before a new element that goes after its equals. -/
def boundaryAfter (before : Comparison α ε) (element : α) (run : Array α) (hint : Nat) :
    Except ε Nat :=
  boundary (fun other => return !(← before element other)) run hint

/-- How many elements of a run come before a new element that goes in front of its equals. -/
def boundaryBefore (before : Comparison α ε) (element : α) (run : Array α) (hint : Nat) :
    Except ε Nat :=
  boundary (fun other => before other element) run hint

end Motif.Sorting
