import Motif.Limits.Basic
import Motif.Text.Integer

/-!
Limits from environment variables. A variable that is unset or blank leaves its
limit at the standard value. Integers may have any number of digits.
-/

namespace Motif

inductive LimitVariable where
  | maxDepth
  | maxSteps
  deriving DecidableEq, Repr

namespace LimitVariable

def name : LimitVariable → String
  | .maxDepth => "SHAPEMATCH_MAX_DEPTH"
  | .maxSteps => "SHAPEMATCH_MAX_STEPS"

/-- The limit that holds where the variable says nothing. -/
def standard : LimitVariable → Nat
  | .maxDepth => Limits.defaultDepth
  | .maxSteps => Limits.defaultSteps

end LimitVariable

inductive EnvironmentError where
  /-- A variable is set to a text that denotes no integer. -/
  | notInteger (name : LimitVariable) (text : String)
  /-- A variable is set to an integer that is out of range. -/
  | limits (error : LimitsError)

def EnvironmentError.message : EnvironmentError → String
  | .notInteger name text =>
    "invalid SHAPEMATCH_* limits in environment: " ++ name.name ++ " must be an integer, got " ++
      Text.quoted text
  | .limits error => "invalid SHAPEMATCH_* limits in environment: " ++ error.message

namespace LimitVariable

def read (name : LimitVariable) (setting : Option String) : Except EnvironmentError Int :=
  match setting with
  | none => .ok name.standard
  | some text =>
    if text.toList.all Text.isBlank then .ok name.standard
    else match Text.readInteger? text with
      | some n => .ok n
      | none => .error (.notInteger name text)

end LimitVariable

def Limits.ofEnvironment (setting : String → Option String) :
    Except EnvironmentError Limits := do
  let depth ← LimitVariable.maxDepth.read (setting LimitVariable.maxDepth.name)
  let steps ← LimitVariable.maxSteps.read (setting LimitVariable.maxSteps.name)
  match Limits.ofValues (.int depth) (.int steps) with
  | .ok limits => .ok limits
  | .error error => .error (.limits error)

end Motif
