import Motif.Sorting.Merge

/-!
Sorting by a comparison that may fail or contradict itself. The list is cut into
runs, and neighbouring runs are merged in an order that keeps the merges balanced:
each border between two runs has a power, the depth at which a halving of the whole
list would first separate their middles, and a border of high power is merged away
before one of lower power is added.

Where all elements can be compared and the comparison is an order, the result is the
list in ascending order, equal elements in their given order. Where the comparison
fails, the procedure says which failing pair is met first; where it contradicts
itself, as it does for what is not a number, the procedure says which arrangement
comes out.
-/

namespace Motif.Sorting

variable {α ε : Type}

/-- The least length of a run for a list of a length: from 32 to 64, and such that the number
of runs is close to a power of two. Shorter lists are one run. -/
def leastRun : Nat → Nat → Nat → Nat
  | 0, length, odd => length + odd
  | fuel + 1, length, odd =>
    if length < 64 then length + odd
    else leastRun fuel (length / 2) (if length % 2 = 1 then 1 else odd)

/-- At which binary digit two fractions of `total` part. -/
def partingDigit (total : Nat) : Nat → Nat → Nat → Nat
  | 0, _, _ => 0
  | fuel + 1, a, b =>
    if total ≤ a then partingDigit total fuel (2 * (a - total)) (2 * (b - total)) + 1
    else if total ≤ b then 1
    else partingDigit total fuel (2 * a) (2 * b) + 1

/-- A run that waits to be merged, where it starts, and the power of its right border. -/
structure Pending (α : Type) where
  start : Nat
  run : List α
  power : Nat

/-- The power of the border between a run and a following one of a given length. -/
def Pending.borderPower (p : Pending α) (following total : Nat) : Nat :=
  let middle := 2 * p.start + p.run.length
  partingDigit total (2 * total) middle (middle + p.run.length + following)

/-- Merge the topmost runs as long as the border below the top has a higher power. The
topmost run comes first. -/
def collapse (before : Comparison α ε) (power : Nat) (patience : Nat) (top : Pending α) :
    List (Pending α) → Except ε (Pending α × List (Pending α) × Nat)
  | [] => .ok (top, [], patience)
  | next :: rest =>
    if power < next.power then do
      let (run, patience) ← mergeRuns before patience next.run top.run
      collapse before power patience ⟨next.start, run, next.power⟩ rest
    else .ok (top, next :: rest, patience)

/-- Merge all runs that wait. The topmost one is left out of a merge if the third is shorter. -/
def mergeAll (before : Comparison α ε) : Nat → Nat → List (Pending α) → Except ε (List α)
  | _, _, [] => .ok []
  | _, _, [only] => .ok only.run
  | 0, _, top :: _ => .ok top.run
  | fuel + 1, patience, [top, next] => do
    let (run, patience) ← mergeRuns before patience next.run top.run
    mergeAll before fuel patience [⟨next.start, run, next.power⟩]
  | fuel + 1, patience, top :: next :: third :: rest =>
    if third.run.length < top.run.length then do
      let (run, patience) ← mergeRuns before patience third.run next.run
      mergeAll before fuel patience (top :: ⟨third.start, run, third.power⟩ :: rest)
    else do
      let (run, patience) ← mergeRuns before patience next.run top.run
      mergeAll before fuel patience (⟨next.start, run, next.power⟩ :: third :: rest)

/-- Put a run on top of those that wait. -/
def pushRun (before : Comparison α ε) (total patience start : Nat) (run : List α) :
    List (Pending α) → Except ε (List (Pending α) × Nat)
  | [] => .ok ([⟨start, run, 0⟩], patience)
  | top :: below => do
    let power := top.borderPower run.length total
    let (top, below, patience) ← collapse before power patience top below
    return (⟨start, run, 0⟩ :: { top with power := power } :: below, patience)

/-- Cut the elements from place `start` on into runs, and merge them. Each turn uses up at
least one element, so their number is fuel enough. -/
def sortFrom (before : Comparison α ε) (least total : Nat) :
    Nat → Nat → Nat → List (Pending α) → List α → Except ε (List α)
  | _, patience, _, waiting, [] => mergeAll before waiting.length patience waiting
  | 0, patience, _, waiting, _ => mergeAll before waiting.length patience waiting
  | fuel + 1, patience, start, waiting, elements => do
    let (run, rest) ← leadingRunOf before least elements
    let (waiting, patience) ← pushRun before total patience start run waiting
    sortFrom before least total fuel patience (start + run.length) waiting rest

/-- The list in ascending order, or the error of the first comparison that fails. -/
def sort (before : Comparison α ε) (elements : List α) : Except ε (List α) :=
  let total := elements.length
  sortFrom before (leastRun total total 0) total total leastBurst 0 [] elements

end Motif.Sorting
