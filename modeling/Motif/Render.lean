import Motif.Value.Text

/-!
Patterns in a short form that reads like a regular expression over items: a dot
for anything, parentheses around a choice and around a capture, brackets around a
sequence, and after a repetition a star or its bounds, with a question mark if it
prefers fewer elements.
-/

namespace Motif

inductive RenderError where
  /-- There is something that is no pattern, or one of unspecified kind. -/
  | kind (given : Value)
  | notIterable (given : Value)

def RenderError.message : RenderError → String
  | .kind given => "cannot render " ++ given.typeName
  | .notIterable given => "'" ++ given.typeName ++ "' object is not iterable"

namespace Pattern

def boundsSuffix (bounds : Option Bounds) : String :=
  match bounds with
  | none => "*"
  | some b => "\x7b" ++ toString b.min ++ "," ++ toString b.max ++ "\x7d"

/-- What marks the preference of a repetition. -/
def modeSuffix : Mode → String
  | .greedy => ""
  | .lazy => "?"

mutual

def render : Pattern Value → Except RenderError String
  | .wildcard => .ok "."
  | .literal value => .ok value.text
  | .typeCheck kind => .ok ("<" ++ kind.name ++ ">")
  | .alternation options | .choiceFrom _ options => do
    return "(" ++ String.intercalate "|" (← renderAll options) ++ ")"
  | .sequence elements => do
    return "[" ++ String.intercalate ", " (← renderAll elements) ++ "]"
  | .repeated inner mode bounds => do
    return (← render inner) ++ boundsSuffix bounds ++ modeSuffix mode
  | .arrayOf inner bounds => do
    return "[" ++ (← render inner) ++ boundsSuffix bounds ++ "]"
  | .named label inner => do
    return "(?<" ++ label ++ ">" ++ (← render inner) ++ ")"
  | .unspecified tag => .error (.kind (.pattern (.unspecified tag)))
  | .misfit .notPattern value => .error (.kind value)
  | .misfit .notIterable value => .error (.notIterable value)
termination_by structural p => p

def renderAll : List (Pattern Value) → Except RenderError (List String)
  | [] => .ok []
  | p :: rest => do
    let text ← render p
    let texts ← renderAll rest
    return text :: texts
termination_by structural ps => ps

end

end Pattern

/-- The short form of a value that is a pattern. -/
def Value.renderPattern : Value → Except RenderError String
  | .pattern p => p.render
  | given => .error (.kind given)

end Motif
