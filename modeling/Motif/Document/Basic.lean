import Motif.Value.Data

/-!
Pattern documents: patterns as plain data, to be kept in files or typed. A scalar
is a literal and an array is a sequence; every other pattern is an object whose
key `$` holds a directive. A repetition, an array pattern or a label says what is
inside under `of`, and nothing there means anything. Bounds are kept as they were
written, since a document may hold bounds that no pattern has.
-/

namespace Motif

/-- The words that the key `$` may hold. -/
inductive Directive where
  | any
  | check (kind : Primitive)
  | exact
  | choice
  | sequence
  | repeated (mode : Mode)
  | arrayOf
  | named
  deriving DecidableEq, Repr

namespace Directive

def name : Directive → String
  | .any => "any"
  | .check kind => kind.name
  | .exact => "is"
  | .choice => "or"
  | .sequence => "seq"
  | .repeated mode => mode.name
  | .arrayOf => "array"
  | .named => "name"

def all : List Directive := [
  .any, .check .number, .check .string, .check .boolean, .exact, .choice, .sequence,
  .repeated .greedy, .repeated .lazy, .arrayOf, .named]

def ofName? (name : String) : Option Directive :=
  all.find? fun directive => directive.name == name

/-- The keys that may stand beside the directive. -/
def keys : Directive → List String
  | .any | .check _ => []
  | .exact => ["value"]
  | .choice | .sequence => ["of"]
  | .repeated _ | .arrayOf => ["of", "min", "max"]
  | .named => ["label", "of"]

end Directive

inductive Document where
  | scalar (value : Value)
  | array (items : List Document)
  | any
  | check (kind : Primitive)
  | exact (value : Value)
  | choice (options : List Document)
  | sequence (elements : List Document)
  | repeated (mode : Mode) (inner : Document) (bounds : Option (Value × Value))
  | arrayOf (inner : Document) (bounds : Option (Value × Value))
  | named (label : String) (inner : Document)
  deriving Inhabited

namespace Document

/-- An object with a directive and further keys. -/
def form (directive : Directive) (fields : Entries String Value) : Value :=
  .record (("$", .str directive.name) :: fields)

def boundFields : Option (Value × Value) → Entries String Value
  | none => []
  | some (min, max) => [("min", min), ("max", max)]

/-- What is inside, as a key of an object; anything is left out. -/
def innerFields (inner : Document) (written : Value) : Entries String Value :=
  match inner with
  | .any => []
  | _ => [("of", written)]

mutual

def toValue : Document → Value
  | .scalar value => value
  | .array items => .list (toValues items)
  | .any => form .any []
  | .check kind => form (.check kind) []
  | .exact value => form .exact [("value", value)]
  | .choice options => form .choice [("of", .list (toValues options))]
  | .sequence elements => form .sequence [("of", .list (toValues elements))]
  | .repeated mode inner bounds =>
    form (.repeated mode) (innerFields inner (toValue inner) ++ boundFields bounds)
  | .arrayOf inner bounds =>
    form .arrayOf (innerFields inner (toValue inner) ++ boundFields bounds)
  | .named label inner =>
    form .named (("label", .str label) :: innerFields inner (toValue inner))
termination_by structural d => d

def toValues : List Document → List Value
  | [] => []
  | d :: rest => toValue d :: toValues rest
termination_by structural ds => ds

end

end Document

end Motif
