import Motif.Document.Basic

/-!
Which values are pattern documents. An object needs a directive, the keys that the
directive asks for, and no others. Bounds come in pairs, and each is a whole number
that is not negative, where a floating-point number with an integral value counts.
Tuples, bytes and things without structure are not part of any document, except
inside the value of an exact match, which may be anything.
-/

namespace Motif

namespace Document

/-- A key of an object, with what it holds as a value and as a document. -/
structure Field where
  key : Value
  value : Value
  document? : Option Document

def field? (name : String) : List Field → Option Field
  | [] => none
  | field :: rest =>
    match field.key with
    | .str key => if key = name then some field else field? name rest
    | _ => field? name rest

/-- Whether a field is the directive or one of its keys. -/
def belongs (directive : Directive) (field : Field) : Bool :=
  match field.key with
  | .str key => key == "$" || directive.keys.contains key
  | _ => false

def isBound : Value → Bool
  | .int n => 0 ≤ n
  | .float x =>
    x.isIntegral && match x.place? with
      | some place => !place.before (.ofInt 0)
      | none => false
  | _ => false

/-- The bounds among the fields: none, or both ends. -/
def bounds? (fields : List Field) : Option (Option (Value × Value)) :=
  match field? "min" fields, field? "max" fields with
  | none, none => some none
  | some min, some max =>
    if isBound min.value && isBound max.value then some (some (min.value, max.value)) else none
  | _, _ => none

/-- What is inside, anything if nothing is said. -/
def inner? (fields : List Field) : Option Document :=
  match field? "of" fields with
  | none => some .any
  | some field => field.document?

/-- The documents of an array under `of`. -/
def parts? (fields : List Field) : Option (List Document) :=
  match field? "of" fields with
  | some ⟨_, _, some (.array items)⟩ => some items
  | _ => none

/-- The document with a directive, from all its fields. -/
def ofDirective (directive : Directive) (fields : List Field) : Option Document :=
  match directive with
  | .any => some .any
  | .check kind => some (.check kind)
  | .exact => (field? "value" fields).map fun field => .exact field.value
  | .choice => (parts? fields).map .choice
  | .sequence => (parts? fields).map .sequence
  | .repeated mode => do return .repeated mode (← inner? fields) (← bounds? fields)
  | .arrayOf => do return .arrayOf (← inner? fields) (← bounds? fields)
  | .named =>
    match field? "label" fields with
    | some ⟨_, .str label, _⟩ => (inner? fields).map (.named label)
    | _ => none

def ofFields (fields : List Field) : Option Document :=
  match field? "$" fields with
  | some ⟨_, .str name, _⟩ => do
    let directive ← Directive.ofName? name
    if fields.all (belongs directive) then ofDirective directive fields else none
  | _ => none

mutual

def ofValue : Value → Option Document
  | .null => some (.scalar .null)
  | .bool b => some (.scalar (.bool b))
  | .int n => some (.scalar (.int n))
  | .float x => some (.scalar (.float x))
  | .str s => some (.scalar (.str s))
  | .seq .list items => (ofValues items).map .array
  | .dict entries => ofFields (fieldsOf entries)
  | .seq .tuple _ | .bytes _ | .object _ | .pattern _ | .marker _ => none
termination_by structural v => v

def ofValues : List Value → Option (List Document)
  | [] => some []
  | v :: rest => do
    let d ← ofValue v
    let ds ← ofValues rest
    return d :: ds
termination_by structural vs => vs

def fieldsOf : List (Value × Value) → List Field
  | [] => []
  | (k, v) :: rest => ⟨k, v, ofValue v⟩ :: fieldsOf rest
termination_by structural entries => entries

end

end Document

end Motif
