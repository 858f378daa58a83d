import Motif.Number.Layout
import Motif.Text.Quoted
import Motif.Value.Basic

/-!
The text of a value, as messages and rendered literals show it. Text and bytes
are quoted, a tuple of one item keeps a comma, and a pattern is written as its
kind applied to its named parts.
-/

namespace Motif

/-- An end of a repetition's bounds, or the word for nothing. -/
def Bounds.endTexts (bounds : Option Bounds) : String × String :=
  match bounds with
  | none => ("None", "None")
  | some b => (toString b.min, toString b.max)

namespace Value

def tupleText (items : List String) : String :=
  "(" ++ String.intercalate ", " items ++ (if items.length = 1 then ",)" else ")")

mutual

def text : Value → String
  | .null => "None"
  | .bool true => "True"
  | .bool false => "False"
  | .int n => toString n
  | .float x => NumberLayout.display.write x
  | .str s => Text.quoted s
  | .bytes bs => Text.quotedBytes bs
  | .seq .list items => "[" ++ String.intercalate ", " (texts items) ++ "]"
  | .seq .tuple items => tupleText (texts items)
  | .dict entries => "\x7b" ++ String.intercalate ", " (entryTexts entries) ++ "\x7d"
  | .object name => "<obj " ++ name ++ ">"
  | .pattern p => patternText p
  | .marker m => "<function " ++ m.name ++ ">"
termination_by structural v => v

def texts : List Value → List String
  | [] => []
  | v :: rest => text v :: texts rest
termination_by structural vs => vs

def entryTexts : List (Value × Value) → List String
  | [] => []
  | (k, v) :: rest => (text k ++ ": " ++ text v) :: entryTexts rest
termination_by structural entries => entries

def patternText : Pattern Value → String
  | .wildcard => "Wildcard()"
  | .literal value => "Literal(value=" ++ text value ++ ")"
  | .typeCheck kind => "TypeCheck(kind=" ++ Text.quoted kind.name ++ ")"
  | .alternation options => "Alternation(options=" ++ tupleText (patternTexts options) ++ ")"
  | .sequence elements => "Sequence(elements=" ++ tupleText (patternTexts elements) ++ ")"
  | .repeated inner mode bounds =>
    let ends := Bounds.endTexts bounds
    "Repeat(inner=" ++ patternText inner ++ ", mode=" ++ Text.quoted mode.name ++
      ", min=" ++ ends.1 ++ ", max=" ++ ends.2 ++ ")"
  | .arrayOf inner bounds =>
    let ends := Bounds.endTexts bounds
    "ArrayOf(inner=" ++ patternText inner ++ ", min=" ++ ends.1 ++ ", max=" ++ ends.2 ++ ")"
  | .named label inner =>
    "Named(label=" ++ Text.quoted label ++ ", inner=" ++ patternText inner ++ ")"
  | .unspecified _ => "Pattern()"
  | .misfit _ value => text value
  | .choiceFrom source _ => "Alternation(options=" ++ text source ++ ")"
termination_by structural p => p

def patternTexts : List (Pattern Value) → List String
  | [] => []
  | p :: rest => patternText p :: patternTexts rest
termination_by structural ps => ps

end

end Value

def Pattern.text (p : Pattern Value) : String := Value.patternText p

end Motif
