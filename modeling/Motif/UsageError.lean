import Motif.Value.Text

/-!
Mistakes in building a pattern, a pattern document or a dispatch table. They are
found while building, so that matching itself fails only when a limit is hit.
-/

namespace Motif

/-- One of the two ends of a repetition's bounds. -/
inductive BoundEnd where
  | min
  | max
  deriving DecidableEq, Repr

def BoundEnd.name : BoundEnd → String
  | .min => "min"
  | .max => "max"

inductive UsageError where
  /-- A type check asks for a kind that is not primitive. -/
  | kind (given : Value)
  /-- A repetition prefers neither more nor fewer elements. -/
  | mode (given : Value)
  | unpairedBounds (min max : Value)
  | bound (which : BoundEnd) (given : Value)
  | reversedBounds (min max : Nat)
  | label (given : Value)
  /-- A document does not follow the pattern format. -/
  | document
  /-- A text that should hold a pattern document is no data text. -/
  | documentText
  /-- A text that should hold a pattern document spells half a character, which strings cannot hold
  here. What else may be wrong with it is left open. -/
  | halfCharacter
  /-- A dispatch table has a pattern without a handler. -/
  | oddClauses (count : Nat)
  /-- A handler in a dispatch table cannot be applied. -/
  | handler (clause : Nat) (given : Value)

namespace UsageError

/-- What is said about a mistake. What there is to say about a document or its text ends before the
place of the mistake and the reason, which are left to whoever checks the document and reads the
text: after these two messages more may follow. -/
def message : UsageError → String
  | .kind given =>
    "type check kind must be one of ('number', 'string', 'boolean'), got " ++ given.text
  | .mode given => "repeat mode must be one of ('greedy', 'lazy'), got " ++ given.text
  | .unpairedBounds min max =>
    "repetition needs either both min and max or neither, got min=" ++ min.text ++
      " max=" ++ max.text
  | .bound which given =>
    "repetition " ++ which.name ++ " must be a non-negative integer, got " ++ given.text
  | .reversedBounds min max =>
    "repetition min must not exceed max, got min=" ++ toString min ++ " max=" ++ toString max
  | .label given => "capture label must be str, got " ++ given.typeName
  | .document => "invalid pattern document"
  | .documentText => "pattern must be JSON"
  | .halfCharacter => "pattern spells half a character"
  | .oddClauses count =>
    "dispatch clauses must alternate pattern and handler; got an odd count (" ++
      toString count ++ ")"
  | .handler clause given =>
    "dispatch clause " ++ toString clause ++ " handler must be callable, got " ++ given.typeName

end UsageError

end Motif
