/-!
Floating-point numbers of the 64-bit binary format, kept exactly. Every finite
number is a whole count of the smallest positive one, `2 ^ (-1074)`, so that
comparing two numbers, or a number with an integer, is comparing integers and
no rounding takes part. Only `ofRatio` rounds.
-/

namespace Motif

/-- A number of the format. Zero keeps its sign. What is not a number has a tag, by which a
container can tell whether it holds the very same one; it equals no number, not even itself. -/
inductive Binary64 where
  | nan (tag : Nat)
  | infinite (negative : Bool)
  | finite (negative : Bool) (steps : Nat)
  deriving DecidableEq, Repr, Inhabited

/-- A place on the number line, counted in steps and closed off at both ends. -/
inductive Place where
  | negativeInfinity
  | steps (count : Int)
  | positiveInfinity
  deriving DecidableEq, Repr

namespace Place

/-- How many steps make one. -/
def stepsPerUnit : Nat := Nat.pow 2 1074

def ofInt (n : Int) : Place := .steps (n * stepsPerUnit)

/-- Whether the first place lies strictly before the second. -/
def before : Place → Place → Bool
  | .negativeInfinity, .negativeInfinity => false
  | .negativeInfinity, _ => true
  | .steps a, .steps b => a < b
  | .steps _, .positiveInfinity => true
  | _, _ => false

end Place

namespace Binary64

/-- Where a number stands; what is not a number stands nowhere. Both zeros stand at zero. -/
def place? : Binary64 → Option Place
  | .nan _ => none
  | .infinite true => some .negativeInfinity
  | .infinite false => some .positiveInfinity
  | .finite true steps => some (.steps (-(steps : Int)))
  | .finite false steps => some (.steps steps)

def equals (x y : Binary64) : Bool :=
  match x.place?, y.place? with
  | some p, some q => p == q
  | _, _ => false

def isFinite : Binary64 → Bool
  | .finite _ _ => true
  | _ => false

def isIntegral : Binary64 → Bool
  | .finite _ steps => steps % Place.stepsPerUnit == 0
  | _ => false

/-- How many steps lie between neighbouring numbers at a magnitude: 53 binary digits are kept. -/
def spacing (steps : Nat) : Nat :=
  Nat.pow 2 (steps.log2 + 1 - 53)

/-- A quotient rounded to the nearest whole number, a half going to the even one. -/
def roundQuotient (numerator denominator : Nat) : Nat :=
  let quotient := numerator / denominator
  let twice := 2 * (numerator % denominator)
  if twice < denominator then quotient
  else if denominator < twice then quotient + 1
  else quotient + quotient % 2

/-- The number of the format nearest to a ratio, ties to the even neighbour; past the
largest finite number it is infinite. -/
def ofRatio (negative : Bool) (numerator denominator : Nat) : Binary64 :=
  let scaled := numerator * Place.stepsPerUnit
  let gap := spacing (scaled / denominator)
  let steps := roundQuotient scaled (denominator * gap) * gap
  if steps < Nat.pow 2 1024 * Place.stepsPerUnit then .finite negative steps else .infinite negative

/-- The number of the format nearest to `digits * 10 ^ exponent`. Exponents far outside the
format's range are settled by size alone. -/
def ofDecimal (negative : Bool) (digits : Nat) (exponent : Int) : Binary64 :=
  if digits = 0 then .finite negative 0
  else
    let magnitude := exponent + (Nat.toDigits 10 digits).length
    if 310 < magnitude then .infinite negative
    else if magnitude < -330 then .finite negative 0
    else match exponent with
      | .ofNat e => ofRatio negative (digits * Nat.pow 10 e) 1
      | .negSucc e => ofRatio negative digits (Nat.pow 10 (e + 1))

end Binary64

end Motif
