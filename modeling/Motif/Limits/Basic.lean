import Motif.Signature
import Motif.Value.Text

/-!
Limits on a single match. Matching searches exhaustively, and adjacent
repetitions over a long sequence can take very long; the limits bound how deep a
match descends and how many chunks it attempts.
-/

namespace Motif

/-- A limit as it was given: a number, or a truth value standing for 0 or 1. -/
inductive Count where
  | number (n : Nat)
  | flag (b : Bool)
  deriving DecidableEq, Repr

namespace Count

def value : Count → Nat
  | .number n => n
  | .flag b => b.toNat

def toValue : Count → Value
  | .number n => .int n
  | .flag b => .bool b

def text (c : Count) : String := c.toValue.text

def ofValue? : Value → Option Count
  | .int (.ofNat n) => some (.number n)
  | .bool b => some (.flag b)
  | _ => none

end Count

/-- At most `maxDepth` sequences and arrays may be open at a time, and at most `maxSteps`
chunks may be attempted, where 0 sets no limit. -/
structure Limits where
  maxDepth : Count
  maxSteps : Count
  maxDepth_pos : 0 < maxDepth.value

namespace Limits

def defaultDepth : Nat := 200

def defaultSteps : Nat := 0

end Limits

def Limits.standard : Limits :=
  ⟨.number Limits.defaultDepth, .number Limits.defaultSteps, by decide⟩

inductive LimitsError where
  | maxDepth (given : Value)
  | maxSteps (given : Value)
  /-- A limit is given that there is not. -/
  | argument (error : ArgumentError)

def LimitsError.message : LimitsError → String
  | .maxDepth given => "max_depth must be a positive integer, got " ++ given.text
  | .maxSteps given => "max_steps must be a non-negative integer, got " ++ given.text
  | .argument error => error.message

/-- Limits from two values; the depth is checked first. -/
def Limits.ofValues (maxDepth maxSteps : Value) : Except LimitsError Limits :=
  match Count.ofValue? maxDepth with
  | none => .error (.maxDepth maxDepth)
  | some depth =>
    if positive : 0 < depth.value then
      match Count.ofValue? maxSteps with
      | none => .error (.maxSteps maxSteps)
      | some steps => .ok ⟨depth, steps, positive⟩
    else .error (.maxDepth maxDepth)

/-- How limits are given by name. The limits that are to be made count as an argument before
all others. -/
def Limits.signature : Signature :=
  ⟨"MatchLimits.__init__", [.required "self", .optional "max_depth" (.int defaultDepth),
    .optional "max_steps" (.int defaultSteps)], false, false⟩

def Limits.ofNamed (named : Entries String Value) : Except LimitsError Limits :=
  let application : Application := ⟨[.null], named⟩
  match signature.check application with
  | .ok () => ofValues (signature.valueAt application 1) (signature.valueAt application 2)
  | .error error => .error (.argument error)

end Motif
