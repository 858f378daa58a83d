import Motif.Construct
import Motif.Document.Codec
import Motif.Signature

/-!
The constructors under their names. A constructor is applied to arguments by place and by
name. Those with small letters turn what they are given into patterns first; those named
after a kind of pattern put it in as it is. Some have a short and a long name.
-/

namespace Motif

inductive ConstructorError where
  | argument (error : ArgumentError)
  | usage (error : UsageError)
  | notIterable (given : Value)
  /-- A pattern of unspecified kind takes no arguments. -/
  | unspecified

def ConstructorError.message : ConstructorError → String
  | .argument error => error.message
  | .usage error => error.message
  | .notIterable given => "'" ++ given.typeName ++ "' object is not iterable"
  | .unspecified => "Pattern() takes no arguments"

/-- What makes a pattern from arguments. -/
abbrev Constructor := Application → Except ConstructorError (Pattern Value)

namespace Constructor

/-- The pattern made from the values of the parameters, if the arguments are as the signature
asks for. -/
def checked (s : Signature) (build : (Nat → Value) → Except ConstructorError (Pattern Value)) :
    Constructor := fun a =>
  match s.check a with
  | .ok () => build (s.valueAt a)
  | .error error => .error (.argument error)

def usage (result : Except UsageError (Pattern Value)) :
    Except ConstructorError (Pattern Value) :=
  match result with
  | .ok p => .ok p
  | .error error => .error (.usage error)

def ofParameters (title : String) (parameters : List Parameter)
    (build : (Nat → Value) → Except UsageError (Pattern Value)) : Constructor :=
  checked ⟨title, parameters, false, false⟩ fun value => usage (build value)

def constant (title : String) (p : Pattern Value) : Constructor :=
  ofParameters title [] fun _ => .ok p

def ofList (title : String) (build : List Value → Pattern Value) : Constructor := fun a =>
  checked ⟨title, [], true, false⟩ (fun _ => .ok (build a.positional)) a

/-- The constructor of a kind. The pattern that is to be made counts as an argument before
all others. -/
def ofKind (kind : String) (parameters : List Parameter)
    (build : (Nat → Value) → Except ConstructorError (Pattern Value)) : Constructor := fun a =>
  checked ⟨kind ++ ".__init__", .required "self" :: parameters, false, false⟩
    (fun value => build fun place => value (place + 1))
    { a with positional := .null :: a.positional }

/-- The parameters of a repeated pattern; a pattern that is left out matches anything. -/
def repeatedParameters : List Parameter :=
  [.optional "inner" (.marker .wildcard), .optional "min" .null, .optional "max" .null]

def literal : Constructor :=
  ofParameters "literal" [.required "value"] fun value => .ok (.literal (value 0))

def greedy : Constructor :=
  ofParameters "greedy" repeatedParameters fun value =>
    Construct.greedy (value 0) (value 1) (value 2)

def lazy : Constructor :=
  ofParameters "lazy" repeatedParameters fun value =>
    Construct.lazy (value 0) (value 1) (value 2)

def arrayOf : Constructor :=
  ofParameters "array_of" repeatedParameters fun value =>
    Construct.arrayOf (value 0) (value 1) (value 2)

def named : Constructor :=
  ofParameters "named" [.required "label", .optional "inner" (.marker .wildcard)] fun value =>
    Construct.named (value 0) (value 1)

def ofValue : Constructor :=
  ofParameters "compile_pattern" [.required "raw"] fun value =>
    .ok (Construct.ofValue (value 0))

def ofDocument : Constructor :=
  ofParameters "decode_pattern" [.required "doc"] fun value => Pattern.decode (value 0)

def kindLiteral : Constructor :=
  ofKind "Literal" [.required "value"] fun value => .ok (.literal (value 0))

def kindTypeCheck : Constructor :=
  ofKind "TypeCheck" [.required "kind"] fun value => usage (Construct.typeCheck (value 0))

def kindAlternation : Constructor :=
  ofKind "Alternation" [.required "options"] fun value => .ok (Construct.choiceOf (value 0))

def kindSequence : Constructor :=
  ofKind "Sequence" [.required "elements"] fun value =>
    match Construct.sequenceOf? (value 0) with
    | some p => .ok p
    | none => .error (.notIterable (value 0))

def kindRepeat : Constructor :=
  ofKind "Repeat" [.required "inner", .optional "mode" (.str Mode.greedy.name),
      .optional "min" .null, .optional "max" .null] fun value =>
    usage (Construct.repetition (Construct.part (value 0)) (value 1) (value 2) (value 3))

def kindArrayOf : Constructor :=
  ofKind "ArrayOf" [.required "inner", .optional "min" .null, .optional "max" .null]
    fun value => usage (Construct.array (Construct.part (value 0)) (value 1) (value 2))

def kindNamed : Constructor :=
  ofKind "Named" [.required "label", .required "inner"] fun value =>
    usage (Construct.labelled (value 0) (Construct.part (value 1)))

def unspecified (tag : Nat) : Constructor := fun a =>
  if a.positional.isEmpty && a.named.isEmpty then .ok (.unspecified tag)
  else .error .unspecified

/-- The constructor under a name. If it makes a pattern of unspecified kind, that one has the
given tag. -/
def ofName? (tag : Nat) (name : String) : Option Constructor :=
  match name with
  | "literal" | "is_" => some literal
  | "wildcard" => some (constant "wildcard" .wildcard)
  | "number" => some (constant "number" (.typeCheck .number))
  | "string" => some (constant "string" (.typeCheck .string))
  | "boolean" => some (constant "boolean" (.typeCheck .boolean))
  | "alternation" | "either" => some (ofList "alternation" Construct.alternation)
  | "sequence" => some (ofList "sequence" Construct.sequence)
  | "greedy" | "repeat_greedy" => some greedy
  | "lazy" | "repeat_lazy" => some lazy
  | "array_of" | "repeat" => some arrayOf
  | "named" => some named
  | "compile_pattern" | "match" => some ofValue
  | "decode_pattern" => some ofDocument
  | "Wildcard" => some (ofKind "Wildcard" [] fun _ => .ok .wildcard)
  | "Literal" => some kindLiteral
  | "TypeCheck" => some kindTypeCheck
  | "Alternation" => some kindAlternation
  | "Sequence" => some kindSequence
  | "Repeat" => some kindRepeat
  | "ArrayOf" => some kindArrayOf
  | "Named" => some kindNamed
  | "Pattern" => some (unspecified tag)
  | _ => none

end Constructor

end Motif
