import Motif.Number.Layout
import Motif.Value.Basic

/-!
Writing values as JSON text. Characters outside ASCII are written as they are;
only the quotation mark, the backslash and the control characters are escaped,
so no written text holds a raw line break. Lists and tuples are both arrays. A
number that has no digits is written as a word.
-/

namespace Motif.Json

/-- Where blanks and line breaks go. -/
inductive Layout where
  /-- Nothing between the parts. -/
  | compact
  /-- A space after each comma and colon. -/
  | spaced
  /-- Each part on a line of its own, indented by two spaces for each level. -/
  | indented
  deriving DecidableEq, Repr

structure Unwritable where
  typeName : String
  deriving DecidableEq, Repr

def Unwritable.message (e : Unwritable) : String :=
  "Object of type " ++ e.typeName ++ " is not JSON serializable"

def escapeChar (c : Char) : List Char :=
  if c = '"' ∨ c = '\\' then ['\\', c]
  else if c = '\n' then ['\\', 'n']
  else if c = '\r' then ['\\', 'r']
  else if c = '\t' then ['\\', 't']
  else if c = Char.ofNat 8 then ['\\', 'b']
  else if c = Char.ofNat 12 then ['\\', 'f']
  else if c.toNat < 32 then
    ['\\', 'u', '0', '0', Nat.digitChar (c.toNat / 16), Nat.digitChar (c.toNat % 16)]
  else [c]

def writeString (text : String) : List Char :=
  '"' :: text.toList.flatMap escapeChar ++ ['"']

namespace Layout

/-- The start of a line at a level. -/
def lineAt (level : Nat) : List Char := '\n' :: List.replicate (2 * level) ' '

/-- What stands between two parts of a container at a level. -/
def separator (layout : Layout) (level : Nat) : List Char :=
  match layout with
  | .compact => [',']
  | .spaced => [',', ' ']
  | .indented => ',' :: lineAt (level + 1)

def colon : Layout → List Char
  | .compact => [':']
  | .spaced | .indented => [':', ' ']

def enclose (layout : Layout) (level : Nat) (opening closing : Char) (parts : List (List Char)) :
    List Char :=
  if parts.isEmpty then [opening, closing]
  else
    let body := (layout.separator level).intercalate parts
    match layout with
    | .indented => opening :: lineAt (level + 1) ++ body ++ lineAt level ++ [closing]
    | _ => opening :: body ++ [closing]

end Layout

mutual

/-- The text of a value that stands at a level of nesting. -/
def writeAt (layout : Layout) : Nat → Value → Except Unwritable (List Char)
  | _, .null => .ok "null".toList
  | _, .bool true => .ok "true".toList
  | _, .bool false => .ok "false".toList
  | _, .int n => .ok (toString n).toList
  | _, .float x => .ok (NumberLayout.data.write x).toList
  | _, .str s => .ok (writeString s)
  | level, .seq _ items => do
    return layout.enclose level '[' ']' (← writeItems layout (level + 1) items)
  | level, .dict entries => do
    return layout.enclose level (Char.ofNat 123) (Char.ofNat 125)
      (← writeEntries layout (level + 1) entries)
  | _, .bytes bs => .error ⟨(Value.bytes bs).typeName⟩
  | _, .object name => .error ⟨(Value.object name).typeName⟩
  | _, .pattern p => .error ⟨(Value.pattern p).typeName⟩
  | _, .marker m => .error ⟨(Value.marker m).typeName⟩
termination_by structural _ v => v

def writeItems (layout : Layout) : Nat → List Value → Except Unwritable (List (List Char))
  | _, [] => .ok []
  | level, v :: rest => do
    let text ← writeAt layout level v
    return text :: (← writeItems layout level rest)
termination_by structural _ vs => vs

def writeEntries (layout : Layout) :
    Nat → List (Value × Value) → Except Unwritable (List (List Char))
  | _, [] => .ok []
  | level, (k, v) :: rest => do
    let key ← match k with
      | .str s => .ok (writeString s)
      | other => .error (⟨other.typeName⟩ : Unwritable)
    let text ← writeAt layout level v
    return (key ++ layout.colon ++ text) :: (← writeEntries layout level rest)
termination_by structural _ entries => entries

end

def write (layout : Layout) (v : Value) : Except Unwritable String := do
  return String.ofList (← writeAt layout 0 v)

end Motif.Json
