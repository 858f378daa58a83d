/-!
Ascending runs. A list to be sorted is cut into runs that are already in order;
a run that is too short is lengthened by placing further elements into it.
Comparisons may fail, and they need not be consistent: which pairs are compared,
and in which order, is part of what these functions say.
-/

namespace Motif.Sorting

/-- Whether the first element comes strictly before the second, or why nobody can tell. -/
abbrev Comparison (α ε : Type) := α → α → Except ε Bool

variable {α ε : Type}

/-- The longest continuation of a run that ends in `last`: each element comes strictly
before its predecessor, or no element does. The run is returned latest first. -/
def continueRun (before : Comparison α ε) (descending : Bool) (run : List α) (last : α) :
    List α → Except ε (List α × List α)
  | [] => .ok (last :: run, [])
  | next :: rest => do
    if (← before next last) == descending then
      continueRun before descending (last :: run) next rest
    else return (last :: run, next :: rest)

/-- The leading run in ascending order, and what follows it. -/
def leadingRun (before : Comparison α ε) : List α → Except ε (List α × List α)
  | [] => .ok ([], [])
  | [only] => .ok ([only], [])
  | first :: second :: rest => do
    let descending ← before second first
    let (run, rest) ← continueRun before descending [first] second rest
    return (if descending then run else run.reverse, rest)

/-- Split a sorted list at the place of a new element: after all elements that it does not
come before. -/
def splitFor (before : Comparison α ε) (pivot : α) :
    Nat → List α → Except ε (List α × List α)
  | 0, sorted => .ok (sorted, [])
  | fuel + 1, sorted =>
    match sorted.drop (sorted.length / 2) with
    | [] => .ok ([], [])
    | middle :: above => do
      let below := sorted.take (sorted.length / 2)
      if ← before pivot middle then
        let (left, right) ← splitFor before pivot fuel below
        return (left, right ++ middle :: above)
      else
        let (left, right) ← splitFor before pivot fuel above
        return (below ++ middle :: left, right)

/-- Place elements one after the other into a sorted list. -/
def placeAll (before : Comparison α ε) : List α → List α → Except ε (List α)
  | sorted, [] => .ok sorted
  | sorted, pivot :: rest => do
    let (left, right) ← splitFor before pivot sorted.length sorted
    placeAll before (left ++ pivot :: right) rest

/-- The leading run, lengthened to `least` elements if there are so many, and what follows. -/
def leadingRunOf (before : Comparison α ε) (least : Nat) (elements : List α) :
    Except ε (List α × List α) := do
  let (run, rest) ← leadingRun before elements
  let missing := least - run.length
  let run ← placeAll before run (rest.take missing)
  return (run, rest.drop missing)

end Motif.Sorting
