import Motif.Entries
import Motif.Number.Binary64
import Motif.Pattern

/-!
Values: what patterns are matched against and what their literals hold. A value
is a scalar, a list or tuple, a mapping, or a thing that has no structure of its
own. Patterns are values too, and so are the bare constructors that stand for
the patterns without arguments.

Lists and tuples are the only sequences. Text and bytes are scalars here, so a
text never matches a sequence pattern character by character.
-/

namespace Motif

/-- The two kinds of sequence. A slice of a sequence is of the same kind. -/
inductive Form where
  | list
  | tuple
  deriving DecidableEq, Repr, Inhabited

/-- The constructors that may be written without being applied. -/
inductive Marker where
  | wildcard
  | primitive (kind : Primitive)
  deriving DecidableEq, Repr, Inhabited

namespace Marker

def name : Marker → String
  | .wildcard => "wildcard"
  | .primitive kind => kind.name

end Marker

inductive Value where
  | null
  | bool (b : Bool)
  | int (n : Int)
  | float (x : Binary64)
  | str (text : String)
  | bytes (bytes : List UInt8)
  | seq (form : Form) (items : List Value)
  | dict (entries : List (Value × Value))
  | object (name : String)
  | pattern (p : Pattern Value)
  | marker (m : Marker)
  deriving Inhabited

/-- What a value is, as far as type checks can tell. -/
inductive Kind where
  | null
  | boolean
  | number
  | string
  | sequence
  | mapping
  | other
  deriving DecidableEq, Repr

namespace Kind

def name : Kind → String
  | .null => "null"
  | .boolean => "boolean"
  | .number => "number"
  | .string => "string"
  | .sequence => "sequence"
  | .mapping => "mapping"
  | .other => "other"

end Kind

/-- The kind that a type check asks for. -/
def Primitive.kind : Primitive → Kind
  | .number => .number
  | .string => .string
  | .boolean => .boolean

namespace Value

/-- A truth value is no number, although it compares equal to one. -/
def kind : Value → Kind
  | .null => .null
  | .bool _ => .boolean
  | .int _ | .float _ => .number
  | .str _ => .string
  | .seq .. => .sequence
  | .dict _ => .mapping
  | .bytes _ | .object _ | .pattern _ | .marker _ => .other

mutual

def typeName : Value → String
  | .null => "NoneType"
  | .bool _ => "bool"
  | .int _ => "int"
  | .float _ => "float"
  | .str _ => "str"
  | .bytes _ => "bytes"
  | .seq .list _ => "list"
  | .seq .tuple _ => "tuple"
  | .dict _ => "dict"
  | .object _ => "Obj"
  | .pattern p => patternTypeName p
  | .marker _ => "function"
termination_by structural v => v

/-- The name of a pattern's kind. A misfit is what it is. -/
def patternTypeName : Pattern Value → String
  | .wildcard => "Wildcard"
  | .literal _ => "Literal"
  | .typeCheck _ => "TypeCheck"
  | .alternation _ | .choiceFrom _ _ => "Alternation"
  | .sequence _ => "Sequence"
  | .repeated .. => "Repeat"
  | .arrayOf .. => "ArrayOf"
  | .named .. => "Named"
  | .unspecified _ => "Pattern"
  | .misfit _ v => typeName v
termination_by structural p => p

end

/-- The type's name in messages that show the type itself: what is not built in carries the
name of the package part that it belongs to. -/
def className : Value → String
  | .pattern (.sequence elements) =>
    "shapematch.sequence." ++ patternTypeName (.sequence elements)
  | .pattern p => "shapematch.patterns." ++ patternTypeName p
  | .object name => "__main__." ++ typeName (.object name)
  | v => v.typeName

def isSequence : Value → Bool
  | .seq .. => true
  | _ => false

/-- The items of a sequence, and which kind of sequence holds them. -/
def items? : Value → Option (Form × List Value)
  | .seq form items => some (form, items)
  | _ => none

/-- The values that come out of a value one by one: the items of a sequence, the keys of a
mapping, the characters of a text, the numbers of bytes. -/
def iterate? : Value → Option (List Value)
  | .seq _ items => some items
  | .dict entries => some (entries.map (·.1))
  | .str s => some (s.toList.map fun c => .str (String.singleton c))
  | .bytes bs => some (bs.map fun b => .int b.toNat)
  | _ => none

/-- The number a value stands for in comparisons: truth values count as 0 and 1. -/
def place? : Value → Option Place
  | .bool b => some (.ofInt (if b then 1 else 0))
  | .int n => some (.ofInt n)
  | .float x => x.place?
  | _ => none

def list (items : List Value) : Value := .seq .list items

def tuple (items : List Value) : Value := .seq .tuple items

def record (entries : Entries String Value) : Value :=
  .dict (entries.map fun entry => (.str entry.1, entry.2))

end Value

/-- The name of a pattern's kind. -/
def Pattern.kindName (p : Pattern Value) : String := Value.patternTypeName p

end Motif
