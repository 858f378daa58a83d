import Motif.Text.Integer

/-!
The command line's arguments. Options start with two hyphens, may be shortened as
long as they stay unique, and take an argument after a blank or an equals sign.
Everything is classified first, before any argument is used, so that an ambiguous
option is found even after a call for help. A lone `--` ends the options. An argument
that starts with a hyphen is no option if it is a plain negative number or holds a
space.

There are two positional arguments, a pattern and an input. Both are taken from the
first group of plain arguments, so what comes after a later option is left over.
-/

namespace Motif.CommandLine

inductive OptionName where
  | help
  | schema
  | pretty
  | trace
  | stdin
  | inputFile
  | maxSteps
  deriving DecidableEq, Repr

namespace OptionName

/-- All spellings, in the order in which they are looked up. -/
def spellings : List (String × OptionName) := [
  ("-h", .help), ("--help", .help), ("--schema", .schema), ("--pretty", .pretty),
  ("--trace", .trace), ("--stdin", .stdin), ("--input-file", .inputFile),
  ("--max-steps", .maxSteps)]

def ofSpelling? (text : String) : Option OptionName :=
  (spellings.find? fun spelling => spelling.1 == text).map (·.2)

def takesArgument : OptionName → Bool
  | .inputFile | .maxSteps => true
  | _ => false

end OptionName

/-- What an argument is, seen on its own. -/
inductive Token where
  | plain (text : String)
  | separator
  /-- An option in its long spelling, and the text after its equals sign. -/
  | long (name : OptionName) (attached : Option String)
  /-- The short option for help, and whatever is written onto it. -/
  | short (attached : List Char)
  | unknown

/-- A text cut at its first equals sign. -/
def cutAtEquals (text : String) : String × Option String :=
  let chars := text.toList
  let start := String.ofList (chars.takeWhile (· != '='))
  match chars.dropWhile (· != '=') with
  | [] => (start, none)
  | _ :: rest => (start, some (String.ofList rest))

/-- Whether a text is a hyphen, digits, and possibly a point before the last digits. A line
break at the end does not count. -/
def isNegativeNumber (text : String) : Bool :=
  match text.toList with
  | '-' :: rest =>
    let body := if rest.getLast? = some '\n' then rest.dropLast else rest
    let isDigit (c : Char) : Bool := (Text.digitValue? c).isSome
    match body.dropWhile isDigit with
    | [] => !body.isEmpty
    | '.' :: fraction => !fraction.isEmpty && fraction.all isDigit
    | _ => false
  | _ => false

/-- The options whose spelling starts with a text. -/
def OptionName.startingWith (text : String) : List OptionName :=
  (spellings.filter fun spelling => text.toList.isPrefixOf spelling.1.toList).map (·.2)

/-- Classify an argument that is neither an option nor the start of one. -/
def classifyOther (text : String) : Token :=
  if isNegativeNumber text || text.toList.contains ' ' then .plain text else .unknown

/-- Classify an argument that stands before any separator. An ambiguous option has no class. -/
def classify (text : String) : Option Token :=
  match text.toList with
  | '-' :: '-' :: _ =>
    let (start, attached) := cutAtEquals text
    match OptionName.ofSpelling? start with
    | some name => some (.long name attached)
    | none =>
      match OptionName.startingWith start with
      | [] => some (classifyOther text)
      | [name] => some (.long name attached)
      | _ => none
  | '-' :: 'h' :: attached => some (.short attached)
  | '-' :: _ :: _ => some (classifyOther text)
  | _ => some (.plain text)

/-- Classify all arguments. After a separator everything is plain. -/
def classifyAll : List String → Option (List Token)
  | [] => some []
  | text :: rest =>
    if text = "--" then some (.separator :: rest.map .plain)
    else do
      let token ← classify text
      let tokens ← classifyAll rest
      return token :: tokens

/-- What an option that takes an argument was given. Two hyphens after the equals sign
separate nothing, and leave the option with nothing. -/
inductive Given (α : Type) where
  | value (a : α)
  | nothing
  deriving DecidableEq, Repr

structure Arguments where
  pattern : Option String
  input : Option String
  schema : Bool
  pretty : Bool
  trace : Bool
  stdin : Bool
  inputFile : Option (Given String)
  maxSteps : Option (Given Int)
  deriving DecidableEq

/-- Why the arguments are not used: help was asked for, or they are wrong. -/
inductive Stop where
  | help
  | usage
  deriving DecidableEq, Repr

/-- The progress of reading arguments. The positional arguments are open until the first
group of plain arguments is met. -/
structure Progress where
  arguments : Arguments
  positionalsOpen : Bool
  leftOver : Bool

namespace Progress

def initial : Progress :=
  ⟨⟨none, none, false, false, false, false, none, none⟩, true, false⟩

end Progress

namespace Token

def isSeparator : Token → Bool
  | .separator => true
  | _ => false

/-- The text that one positional argument takes, and the tokens after it. It takes the
separator too; two hyphens that the separator made plain are taken for another one, unless
the separator itself is taken with them. -/
def takePositional (tokens : List Token) : Option String × List Token :=
  let separated := tokens.head?.any isSeparator
  match tokens.dropWhile isSeparator with
  | .plain text :: rest =>
    (if text = "--" && !separated then none else some text, rest.dropWhile isSeparator)
  | rest => (none, rest)

end Token

/-- What the short option for help means with something written onto it, or onto an equals
sign after it: further short options, of which there are none but this one. An equals sign
must have something after it. -/
def shortHelp : List Char → Stop
  | ['='] => .usage
  | '=' :: rest | rest => if rest.all (· == 'h') then .help else .usage

def Arguments.setFlag (a : Arguments) : OptionName → Except Stop Arguments
  | .help => .error .help
  | .schema => .ok { a with schema := true }
  | .pretty => .ok { a with pretty := true }
  | .trace => .ok { a with trace := true }
  | .stdin => .ok { a with stdin := true }
  | .inputFile | .maxSteps => .error .usage

/-- Use an option with its argument. A file must exist, unless a hyphen stands for the
standard input, and a number of steps must be an integer. -/
def Arguments.setArgument (fileExists : String → Bool) (a : Arguments) (name : OptionName)
    (argument : String) : Except Stop Arguments :=
  match name with
  | .inputFile =>
    if argument = "--" then .ok { a with inputFile := some .nothing }
    else if argument = "-" || fileExists argument then
      .ok { a with inputFile := some (.value argument) }
    else .error .usage
  | .maxSteps =>
    if argument = "--" then .ok { a with maxSteps := some .nothing }
    else match Text.readInteger? argument with
      | some n => .ok { a with maxSteps := some (.value n) }
      | none => .error .usage
  | _ => .error .usage

/-- Use tokens from first to last. Each turn uses up at least one, so their number is fuel
enough. -/
def useTokens (fileExists : String → Bool) : Nat → Progress → List Token → Except Stop Progress
  | 0, progress, _ => .ok progress
  | _ + 1, progress, [] => .ok progress
  | fuel + 1, progress, token :: rest =>
    match token with
    | .unknown => useTokens fileExists fuel { progress with leftOver := true } rest
    | .short attached => .error (shortHelp attached)
    | .long name attached =>
      if name.takesArgument then
        match attached, rest with
        | some argument, _ => do
          let arguments ← progress.arguments.setArgument fileExists name argument
          useTokens fileExists fuel { progress with arguments := arguments } rest
        | none, .plain argument :: rest => do
          let arguments ← progress.arguments.setArgument fileExists name argument
          useTokens fileExists fuel { progress with arguments := arguments } rest
        | none, _ => .error .usage
      else if attached.isSome then .error .usage
      else do
        let arguments ← progress.arguments.setFlag name
        useTokens fileExists fuel { progress with arguments := arguments } rest
    | .plain _ | .separator =>
      if progress.positionalsOpen then
        let (pattern, afterPattern) := Token.takePositional (token :: rest)
        let (input, afterInput) := Token.takePositional afterPattern
        let arguments := { progress.arguments with pattern := pattern, input := input }
        useTokens fileExists fuel
          { progress with arguments := arguments, positionalsOpen := false } afterInput
      else useTokens fileExists fuel { progress with leftOver := true } rest

def Arguments.ofStrings (fileExists : String → Bool) (texts : List String) :
    Except Stop Arguments :=
  match classifyAll texts with
  | none => .error .usage
  | some tokens => do
    let progress ← useTokens fileExists tokens.length .initial tokens
    if progress.leftOver then .error .usage else .ok progress.arguments

end Motif.CommandLine
