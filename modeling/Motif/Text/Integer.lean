import Motif.Text.Blank
import Motif.Text.Digit

/-!
Integers as people type them: blanks around, one sign, digits of any script,
and single underscores between digits.
-/

namespace Motif.Text

/-- The number whose leading digits make `value` and whose remaining text follows. An
underscore must have a digit on either side. -/
def continueNatural (value : Nat) : List Char → Option Nat
  | [] => some value
  | c :: rest =>
    match digitValue? c with
    | some d => continueNatural (10 * value + d) rest
    | none =>
      if c = '_' then
        match rest with
        | [] => none
        | next :: rest =>
          match digitValue? next with
          | some d => continueNatural (10 * value + d) rest
          | none => none
      else none

def readNatural? : List Char → Option Nat
  | [] => none
  | c :: rest =>
    match digitValue? c with
    | some d => continueNatural d rest
    | none => none

def readInteger? (text : String) : Option Int :=
  match strip isPadding text.toList with
  | '+' :: rest => (readNatural? rest).map Int.ofNat
  | '-' :: rest => (readNatural? rest).map fun n => -(n : Int)
  | unsigned => (readNatural? unsigned).map Int.ofNat

end Motif.Text
