import Motif.Value.Equality

/-!
The order of mapping keys, and sorting by it. Numbers are ordered by what they
stand for, text by code points, bytes by value, and tuples by their first
different items. Other values have no order, and comparing them is an error that
names the two types.
-/

namespace Motif

structure Incomparable where
  left : String
  right : String
  deriving DecidableEq, Repr

def Incomparable.message (e : Incomparable) : String :=
  "'<' not supported between instances of '" ++ e.left ++ "' and '" ++ e.right ++ "'"

def bytesBefore : List UInt8 → List UInt8 → Bool
  | _, [] => false
  | [], _ :: _ => true
  | a :: as, b :: bs => a < b || (a == b && bytesBefore as bs)

namespace Value

/-- The order of numbers. What is not a number comes before nothing. -/
def numberBefore (a b : Value) : Except Incomparable Bool :=
  match b.kind with
  | .number | .boolean =>
    match a.place?, b.place? with
    | some p, some q => .ok (p.before q)
    | _, _ => .ok false
  | _ => .error ⟨a.typeName, b.typeName⟩

mutual

/-- Whether the first value comes strictly before the second. -/
def before : Value → Value → Except Incomparable Bool
  | .str a, .str b => .ok (a < b)
  | .bytes a, .bytes b => .ok (bytesBefore a b)
  | .seq .list xs, .seq .list ys => itemsBefore xs ys
  | .seq .tuple xs, .seq .tuple ys => itemsBefore xs ys
  | .bool a, other => numberBefore (.bool a) other
  | .int a, other => numberBefore (.int a) other
  | .float a, other => numberBefore (.float a) other
  | a, b => .error ⟨a.typeName, b.typeName⟩
termination_by structural v => v

def itemsBefore : List Value → List Value → Except Incomparable Bool
  | _, [] => .ok false
  | [], _ :: _ => .ok true
  | x :: xs, y :: ys => if looselyEqual x y then itemsBefore xs ys else before x y
termination_by structural vs => vs

end

end Value

end Motif
