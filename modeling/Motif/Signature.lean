import Motif.Entries
import Motif.Value.Basic

/-!
What can be applied to arguments, and which arguments it takes. Arguments are given by
place or by name. Every parameter gets one value: what was given, or its standard value.
Names are looked at first, in the order in which they are given, then the number of
places, then what is missing.
-/

namespace Motif

/-- A parameter, and its value unless one is given. -/
structure Parameter where
  name : String
  standard : Option Value

namespace Parameter

def required (name : String) : Parameter := ⟨name, none⟩

def optional (name : String) (standard : Value) : Parameter := ⟨name, some standard⟩

end Parameter

/-- The arguments of one application, by place and by name. -/
structure Application where
  positional : List Value
  named : Entries String Value

/-- What takes arguments, and how. -/
structure Signature where
  title : String
  parameters : List Parameter
  /-- Whether more places are taken than there are parameters. -/
  anyPlace : Bool
  /-- Whether names are taken that are no parameter's. -/
  anyName : Bool

inductive ArgumentError where
  | unknown (title name : String)
  | repeated (title name : String)
  /-- More places are given than there are parameters. The least number of places is that of
  the required parameters. -/
  | superfluous (title : String) (least most given : Nat)
  | missing (title : String) (names : List String)

namespace ArgumentError

/-- Names in a row, each in quotes, with the word for "and" before the last. -/
def enumerate (names : List String) : String :=
  match (names.map fun name => "'" ++ name ++ "'").reverse with
  | [] => ""
  | [only] => only
  | [last, first] => first ++ " and " ++ last
  | last :: before => String.intercalate ", " before.reverse ++ ", and " ++ last

def plural (count : Nat) : String := if count = 1 then "" else "s"

def message : ArgumentError → String
  | .unknown title name => title ++ "() got an unexpected keyword argument '" ++ name ++ "'"
  | .repeated title name => title ++ "() got multiple values for argument '" ++ name ++ "'"
  | .superfluous title least most given =>
    let taken :=
      if least = most then toString most ++ " positional argument" ++ plural most
      else "from " ++ toString least ++ " to " ++ toString most ++ " positional arguments"
    title ++ "() takes " ++ taken ++ " but " ++ toString given ++
      (if given = 1 then " was" else " were") ++ " given"
  | .missing title names =>
    title ++ "() missing " ++ toString names.length ++ " required positional argument" ++
      plural names.length ++ ": " ++ enumerate names

end ArgumentError

namespace Signature

/-- Check one argument that is given by name. -/
def checkName (s : Signature) (places : Nat) (name : String) : Except ArgumentError Unit :=
  match s.parameters.findIdx? (·.name == name) with
  | none => if s.anyName then .ok () else .error (.unknown s.title name)
  | some place => if place < places then .error (.repeated s.title name) else .ok ()

/-- The required parameters that neither a place nor a name gives a value. -/
def missing (s : Signature) (a : Application) : List String :=
  ((s.parameters.drop a.positional.length).filter fun parameter =>
    parameter.standard.isNone && (a.named.find? parameter.name).isNone).map (·.name)

/-- Check that every parameter gets one value. -/
def check (s : Signature) (a : Application) : Except ArgumentError Unit := do
  let places := a.positional.length
  let most := s.parameters.length
  a.named.forM fun entry => s.checkName places entry.1
  if most < places && !s.anyPlace then
    throw (.superfluous s.title (s.parameters.countP (·.standard.isNone)) most places)
  let missing := s.missing a
  if !missing.isEmpty then throw (.missing s.title missing)

/-- The value of the parameter at a place. -/
def valueAt (s : Signature) (a : Application) (place : Nat) : Value :=
  let given := a.positional[place]?.or <|
    s.parameters[place]?.bind fun parameter =>
      (a.named.find? parameter.name).or parameter.standard
  given.getD .null

end Signature

end Motif
