import Motif.Number.Binary64

/-!
The fewest decimal digits that read back as a given number. The numbers that
round to it form an interval. On the grid of decimals with one digit, then two,
and so on, the two neighbours of the number are tried; the first grid with a
neighbour inside the interval decides, the nearer neighbour wins, and an exact
tie goes to the even digit. Seventeen digits always suffice.
-/

namespace Motif

/-- The decimal `digits * 10 ^ exponent`. -/
structure Decimal where
  digits : Nat
  exponent : Int
  deriving DecidableEq, Repr

namespace Decimal

/-- The decimal with its closing zeros moved into the exponent. -/
def trimmed (d : Decimal) : Nat → Decimal
  | 0 => d
  | fuel + 1 =>
    if d.digits ≠ 0 ∧ d.digits % 10 = 0 then trimmed ⟨d.digits / 10, d.exponent + 1⟩ fuel else d

end Decimal

namespace Binary64

/-- The power of ten just above a count of steps: `10 ^ (k - 1) ≤ steps < 10 ^ k` in units. -/
def decimalMagnitude (steps : Nat) : Int :=
  ((Nat.toDigits 10 (steps * Nat.pow 10 343 / Place.stepsPerUnit)).length : Int) - 343

/-- A grid of decimals: how many quarter steps one of its units has, as a ratio. -/
structure Grid where
  exponent : Int
  quarters : Nat
  per : Nat

/-- The grid of multiples of `10 ^ exponent`. -/
def Grid.ofExponent (exponent : Int) : Grid :=
  let unit := 4 * Place.stepsPerUnit
  match exponent with
  | .ofNat e => ⟨exponent, Nat.pow 10 e * unit, 1⟩
  | .negSucc e => ⟨exponent, unit, Nat.pow 10 (e + 1)⟩

/-- The multiple of the grid's unit that reads back as the number and lies nearest to it,
if one of the number's two neighbours does. Ends of the interval count exactly when
`closed`. -/
def Grid.nearest? (grid : Grid) (value below above : Nat) (closed : Bool) : Option Nat :=
  let target := value * grid.per
  let low := (value - below) * grid.per
  let high := (value + above) * grid.per
  let inside (d : Nat) : Bool :=
    let place := d * grid.quarters
    if closed then low ≤ place && place ≤ high else low < place && place < high
  let floor := target / grid.quarters
  let toFloor := target - floor * grid.quarters
  let toCeiling := (floor + 1) * grid.quarters - target
  match inside floor, inside (floor + 1) with
  | true, true =>
    if toFloor < toCeiling then some floor
    else if toCeiling < toFloor then some (floor + 1)
    else some (floor + floor % 2)
  | true, false => some floor
  | false, true => some (floor + 1)
  | false, false => none

/-- The fewest digits for a positive count of steps, trying `count` digits and more. -/
def shortestFrom (steps : Nat) (magnitude : Int) (count : Nat) : Nat → Decimal
  | 0 => ⟨0, 0⟩
  | fuel + 1 =>
    let gap := spacing steps
    let significand := steps / gap
    let above := 2 * gap
    let below := if 1 < gap ∧ significand = Nat.pow 2 52 then gap else 2 * gap
    let grid := Grid.ofExponent (magnitude - count)
    match grid.nearest? (4 * steps) below above (significand % 2 == 0) with
    | some digits => Decimal.trimmed ⟨digits, grid.exponent⟩ 17
    | none => shortestFrom steps magnitude (count + 1) fuel

/-- The fewest digits that read back as the given count of steps. -/
def shortest (steps : Nat) : Decimal :=
  if steps = 0 then ⟨0, 0⟩ else shortestFrom steps (decimalMagnitude steps) 1 17

end Binary64

end Motif
