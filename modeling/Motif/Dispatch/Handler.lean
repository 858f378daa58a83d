import Motif.Matching
import Motif.Value.Text

/-!
Handlers: what a dispatch table does with the captures of a clause, or with a value
that no clause matches. A handler gives its argument back, or a fixed value, or one
entry of its argument; it refuses with a message, or declines. A pattern is a
handler too: it is matched against the argument.
-/

namespace Motif

inductive Handler where
  | argument
  | constant (value : Value)
  | entry (label : String)
  | refuse (message : String)
  | decline
  | pattern (p : Pattern Value)
  /-- A bare constructor, which takes no argument and so always fails. -/
  | marker (m : Marker)
  /-- A value that is no handler, which fails only when it is applied. -/
  | inapplicable (value : Value)

inductive Reply where
  | value (v : Value)
  | noMatch

inductive HandlerError where
  | refused (message : String)
  | missingEntry (label : String)
  /-- The argument has entries, but not under labels. -/
  | unlabelled (argument : Value)
  | superfluousArgument (m : Marker)
  | inapplicable (value : Value)
  | aborted (reason : Abort)

namespace HandlerError

/-- What a value says when it is asked for the entry under a label. -/
def unlabelledMessage : Value → String
  | .seq .list _ => "list indices must be integers or slices, not str"
  | .seq .tuple _ => "tuple indices must be integers or slices, not str"
  | .str _ => "string indices must be integers, not 'str'"
  | .bytes _ => "byte indices must be integers or slices, not str"
  | v => "'" ++ v.typeName ++ "' object is not subscriptable"

def message : HandlerError → String
  | .refused message => message
  | .missingEntry label => (Value.str label).text
  | .unlabelled argument => unlabelledMessage argument
  | .superfluousArgument m => m.name ++ "() takes 0 positional arguments but 1 was given"
  | .inapplicable value => "'" ++ value.typeName ++ "' object is not callable"
  | .aborted reason => reason.message

end HandlerError

def Value.labelledEntry (label : String) : Value → Except HandlerError Value
  | .dict entries =>
    match Value.lookUp? (.str label) entries with
    | some v => .ok v
    | none => .error (.missingEntry label)
  | v => .error (.unlabelled v)

namespace Handler

/-- Apply a handler. Only a pattern looks at the observation, because it is matched without
a tracer of its own. -/
def apply (o : Observation) (handler : Handler) (argument : Value) :
    Except HandlerError Reply × Observation :=
  match handler with
  | .argument => (.ok (.value argument), o)
  | .constant v => (.ok (.value v), o)
  | .entry label => ((argument.labelledEntry label).map .value, o)
  | .refuse message => (.error (.refused message), o)
  | .decline => (.ok .noMatch, o)
  | .pattern p =>
    match o.matchAgainst p argument Limits.standard with
    | (.matched captures, o) => (.ok (.value (.record captures)), o)
    | (.noMatch, o) => (.ok .noMatch, o)
    | (.aborted reason, o) => (.error (.aborted reason), o)
  | .marker m => (.error (.superfluousArgument m), o)
  | .inapplicable v => (.error (.inapplicable v), o)

end Handler

end Motif
