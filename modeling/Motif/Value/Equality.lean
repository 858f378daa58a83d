import Motif.Value.Basic

/-!
Two equalities. The loose one compares numbers by what they stand for, so that
`1`, `1.0` and truth are equal; it decides which keys of a mapping are the same
and when two patterns are equal. It takes what is not a number for equal to the
very same one, because it is an equality inside containers. The strict one is the
equality of literals: two values are equal only if they are of one type, all the
way down. It uses the loose one to pair the keys of two mappings and to compare
patterns, and what is not a number differs from everything.
-/

namespace Motif

namespace Value

mutual

/-- Equality by what values stand for. Lists and tuples differ; what can only be the very
same is told by its tag. -/
def looselyEqual : Value → Value → Bool
  | .null, .null => true
  | .str a, .str b => a == b
  | .bytes a, .bytes b => a == b
  | .seq f xs, .seq g ys => f == g && allLooselyEqual xs ys
  | .dict xs, .dict ys => xs.length == ys.length && looselyWithin xs ys
  | .object a, .object b => a == b
  | .pattern p, .pattern q => patternsEqual p q
  | .marker a, .marker b => a == b
  | .float (.nan s), .float (.nan t) => s == t
  | a, b =>
    match a.place?, b.place? with
    | some p, some q => p == q
    | _, _ => false
termination_by structural v => v

def allLooselyEqual : List Value → List Value → Bool
  | [], [] => true
  | x :: xs, y :: ys => looselyEqual x y && allLooselyEqual xs ys
  | _, _ => false
termination_by structural vs => vs

/-- Whether each entry has an equal one among `others`. -/
def looselyWithin : List (Value × Value) → List (Value × Value) → Bool
  | [], _ => true
  | (k, v) :: rest, others =>
    (match others.find? fun other => looselyEqual k other.1 with
      | some other => looselyEqual v other.2
      | none => false) && looselyWithin rest others
termination_by structural entries => entries

/-- Patterns of one kind with equal parts; literals are compared loosely. -/
def patternsEqual : Pattern Value → Pattern Value → Bool
  | .wildcard, .wildcard => true
  | .literal a, .literal b => looselyEqual a b
  | .typeCheck a, .typeCheck b => a == b
  | .alternation ps, .alternation qs => allPatternsEqual ps qs
  | .sequence ps, .sequence qs => allPatternsEqual ps qs
  | .repeated p m b, .repeated q n c => patternsEqual p q && m == n && b == c
  | .arrayOf p b, .arrayOf q c => patternsEqual p q && b == c
  | .named k p, .named l q => k == l && patternsEqual p q
  | .unspecified s, .unspecified t => s == t
  | .misfit f a, .misfit g b => f == g && looselyEqual a b
  | .choiceFrom a _, .choiceFrom b _ => looselyEqual a b
  | _, _ => false
termination_by structural p => p

def allPatternsEqual : List (Pattern Value) → List (Pattern Value) → Bool
  | [], [] => true
  | p :: ps, q :: qs => patternsEqual p q && allPatternsEqual ps qs
  | _, _ => false
termination_by structural ps => ps

end

instance : BEq Value := ⟨looselyEqual⟩

instance : BEq (Pattern Value) := ⟨patternsEqual⟩

/-- The value under a key that loosely equals the given one. -/
def lookUp? (key : Value) (entries : List (Value × Value)) : Option Value :=
  (entries.find? fun other => looselyEqual key other.1).map (·.2)

mutual

def strictlyEqual : Value → Value → Bool
  | .null, .null => true
  | .bool a, .bool b => a == b
  | .int a, .int b => a == b
  | .float a, .float b => a.equals b
  | .str a, .str b => a == b
  | .bytes a, .bytes b => a == b
  | .seq f xs, .seq g ys => f == g && allStrictlyEqual xs ys
  | .dict xs, .dict ys => xs.length == ys.length && strictlyWithin xs ys
  | .object a, .object b => a == b
  | .pattern p, .pattern q => patternsEqual p q
  | .marker a, .marker b => a == b
  | _, _ => false
termination_by structural v => v

def allStrictlyEqual : List Value → List Value → Bool
  | [], [] => true
  | x :: xs, y :: ys => strictlyEqual x y && allStrictlyEqual xs ys
  | _, _ => false
termination_by structural vs => vs

/-- Whether each key is a key of `others`, loosely, with a strictly equal value. -/
def strictlyWithin : List (Value × Value) → List (Value × Value) → Bool
  | [], _ => true
  | (k, v) :: rest, others =>
    (match lookUp? k others with
      | some other => strictlyEqual v other
      | none => false) && strictlyWithin rest others
termination_by structural entries => entries

end

end Value

end Motif
