import Motif.Value.Equality

/-!
Which values may be keys. Lists and mappings may not, and neither may anything
that contains one where a key is looked at: in the items of a tuple, or in the
parts of a pattern.
-/

namespace Motif

namespace Value

mutual

/-- The type name of the first part that keeps a value from being a key. -/
def unhashable? : Value → Option String
  | .seq .list _ => some "list"
  | .dict _ => some "dict"
  | .seq .tuple items => anyUnhashable? items
  | .pattern p => patternUnhashable? p
  | _ => none
termination_by structural v => v

def anyUnhashable? : List Value → Option String
  | [] => none
  | v :: rest => (unhashable? v).or (anyUnhashable? rest)
termination_by structural vs => vs

def patternUnhashable? : Pattern Value → Option String
  | .literal value => unhashable? value
  | .alternation options => anyPatternUnhashable? options
  | .sequence elements => anyPatternUnhashable? elements
  | .repeated inner _ _ => patternUnhashable? inner
  | .arrayOf inner _ => patternUnhashable? inner
  | .named _ inner => patternUnhashable? inner
  | .misfit _ value => unhashable? value
  | .choiceFrom source _ => unhashable? source
  | _ => none
termination_by structural p => p

def anyPatternUnhashable? : List (Pattern Value) → Option String
  | [] => none
  | p :: rest => (patternUnhashable? p).or (anyPatternUnhashable? rest)
termination_by structural ps => ps

end

/-- A value that is used as a key although it cannot be one. -/
structure Unhashable where
  typeName : String
  deriving DecidableEq, Repr

def Unhashable.message (e : Unhashable) : String := "unhashable type: '" ++ e.typeName ++ "'"

def putEntry (entries : List (Value × Value)) (key value : Value) :
    Except Unhashable (List (Value × Value)) :=
  match key.unhashable? with
  | some typeName => .error ⟨typeName⟩
  | none => .ok (Entries.put key value entries)

end Value

end Motif
