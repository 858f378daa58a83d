import Motif.Construct
import Motif.Document.Reading
import Motif.Json.Reader

/-!
From documents to patterns and back. A document that follows the format may still
ask for bounds that no pattern has, so decoding can fail after reading; encoding
fails where a literal is not plain data. A sequence is always written as an array,
and lists, tuples and mappings in literals are written as exact matches.
-/

namespace Motif

namespace Document

mutual

/-- The pattern that a document describes. -/
def toPattern : Document → Except UsageError (Pattern Value)
  | .scalar value => .ok (.literal value)
  | .array items => do return .sequence (← toPatterns items)
  | .any => .ok .wildcard
  | .check kind => .ok (.typeCheck kind)
  | .exact value => .ok (.literal value)
  | .choice options => do return .alternation (← toPatterns options)
  | .sequence elements => do return .sequence (← toPatterns elements)
  | .repeated mode inner bounds => do
    let inner ← toPattern inner
    let (min, max) := bounds.getD (.null, .null)
    Construct.repetition inner (.str mode.name) min max
  | .arrayOf inner bounds => do
    let inner ← toPattern inner
    let (min, max) := bounds.getD (.null, .null)
    Construct.array inner min max
  | .named label inner => do
    let inner ← toPattern inner
    Construct.labelled (.str label) inner
termination_by structural d => d

def toPatterns : List Document → Except UsageError (List (Pattern Value))
  | [] => .ok []
  | d :: rest => do
    let p ← toPattern d
    let ps ← toPatterns rest
    return p :: ps
termination_by structural ds => ds

end

def ofBounds (bounds : Option Bounds) : Option (Value × Value) :=
  bounds.map fun b => (.int b.min, .int b.max)

def ofLiteral (value : Value) : Document :=
  match value with
  | .seq .. | .dict _ => .exact value.asData
  | _ => .scalar value

end Document

inductive EncodeError where
  | literal (value : Value)
  /-- There is something that is no pattern, or one of unspecified kind. -/
  | kind (given : Value)
  | notIterable (given : Value)

def EncodeError.message : EncodeError → String
  | .literal value => "literal " ++ value.text ++ " has no JSON representation"
  | .kind given => "cannot encode " ++ given.typeName
  | .notIterable given => "'" ++ given.typeName ++ "' object is not iterable"

namespace Document

mutual

def ofPattern : Pattern Value → Except EncodeError Document
  | .wildcard => .ok .any
  | .literal value => if value.isData then .ok (ofLiteral value) else .error (.literal value)
  | .typeCheck kind => .ok (.check kind)
  | .alternation options | .choiceFrom _ options => do return .choice (← ofPatterns options)
  | .sequence elements => do return .array (← ofPatterns elements)
  | .repeated inner mode bounds => do
    return .repeated mode (← ofPattern inner) (ofBounds bounds)
  | .arrayOf inner bounds => do return .arrayOf (← ofPattern inner) (ofBounds bounds)
  | .named label inner => do return .named label (← ofPattern inner)
  | .unspecified tag => .error (.kind (.pattern (.unspecified tag)))
  | .misfit .notPattern value => .error (.kind value)
  | .misfit .notIterable value => .error (.notIterable value)
termination_by structural p => p

def ofPatterns : List (Pattern Value) → Except EncodeError (List Document)
  | [] => .ok []
  | p :: rest => do
    let d ← ofPattern p
    let ds ← ofPatterns rest
    return d :: ds
termination_by structural ps => ps

end

/-- Check that a value is a pattern document. -/
def validate (v : Value) : Except UsageError Unit :=
  match ofValue v with
  | some _ => .ok ()
  | none => .error .document

end Document

namespace Pattern

/-- The pattern that a value describes as a document. -/
def decode (v : Value) : Except UsageError (Pattern Value) :=
  match Document.ofValue v with
  | some document => document.toPattern
  | none => .error .document

/-- The document that describes a pattern, as plain data. -/
def encode (p : Pattern Value) : Except EncodeError Value := do
  return (← Document.ofPattern p).toValue

/-- The pattern that a JSON text describes as a document. -/
def ofText (text : String) : Except UsageError (Pattern Value) :=
  match Json.read text with
  | some v => decode v
  | none => .error (if Json.spellsHalf text then .halfCharacter else .documentText)

end Pattern

/-- The document that describes a value that is a pattern, as plain data. -/
def Value.encodePattern : Value → Except EncodeError Value
  | .pattern p => p.encode
  | given => .error (.kind given)

end Motif
