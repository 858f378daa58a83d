import Motif.Number.Shortest

/-!
How a binary64 number is written. The digits are the shortest ones; a layout
says where positional writing ends, how wide an exponent is at least, and what
stands for an infinity and for what is not a number.
-/

namespace Motif

/-- The free choices in writing a number. -/
structure NumberLayout where
  leastPositional : Int
  greatestPositional : Int
  exponentWidth : Nat
  infinity : String
  notANumber : String

namespace NumberLayout

/-- Numbers from `1e-4` to below `1e16` are written out, a whole number keeps one zero
after the point, and an exponent has a sign and at least two digits. -/
def display : NumberLayout := ⟨-4, 15, 2, "inf", "nan"⟩

/-- The same digits in data text, with the longer words for what has no digits. -/
def data : NumberLayout := { display with infinity := "Infinity", notANumber := "NaN" }

private def zeros (count : Nat) : String := String.ofList (List.replicate count '0')

/-- A positive decimal written without an exponent: its first `before` digits stand before
the point, or the point stands before the digits when `before` is not positive. -/
def positional (digits : List Char) (before : Int) : String :=
  if before ≤ 0 then
    "0." ++ zeros (-before).toNat ++ String.ofList digits
  else
    let whole := before.toNat
    if digits.length ≤ whole then
      String.ofList digits ++ zeros (whole - digits.length) ++ ".0"
    else
      String.ofList (digits.take whole) ++ "." ++ String.ofList (digits.drop whole)

/-- A positive decimal written with one digit before the point and an exponent. -/
def scientific (layout : NumberLayout) (digits : List Char) (exponent : Int) : String :=
  let fraction := digits.drop 1
  let mantissa :=
    String.ofList (digits.take 1) ++
      (if fraction.isEmpty then "" else "." ++ String.ofList fraction)
  let power := toString exponent.natAbs
  mantissa ++ "e" ++ (if exponent < 0 then "-" else "+") ++
    zeros (layout.exponentWidth - power.length) ++ power

def decimal (layout : NumberLayout) (d : Decimal) : String :=
  if d.digits = 0 then "0.0"
  else
    let digits := Nat.toDigits 10 d.digits
    let before := d.exponent + digits.length
    if layout.leastPositional ≤ before - 1 ∧ before - 1 ≤ layout.greatestPositional then
      positional digits before
    else
      scientific layout digits (before - 1)

def write (layout : NumberLayout) : Binary64 → String
  | .nan _ => layout.notANumber
  | .infinite negative => (if negative then "-" else "") ++ layout.infinity
  | .finite negative steps =>
    (if negative then "-" else "") ++ layout.decimal (Binary64.shortest steps)

end NumberLayout

end Motif
