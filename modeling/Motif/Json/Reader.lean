import Motif.Text.Digit
import Motif.Value.Equality

/-!
Reading JSON text. Strings allow no raw control character; the only blanks
between the parts are the space, the tab and the two line breaks; numbers without
fraction and exponent are integers, all others are rounded to binary64; the words
for an infinity and for what is not a number are accepted. An object in which a
key repeats keeps the key's first place and its last value.

An escape may spell a surrogate that has no partner, which is half a character. Such a
text is JSON as well, but strings are made of whole characters here, so there is no
value for it. Numbers may have any number of digits, and values may be nested as deep as
the text goes; no bound of the machine is set to either.
-/

namespace Motif.Json

def isBlank (c : Char) : Bool := c == ' ' || c == '\t' || c == '\n' || c == '\r'

def skipBlanks (text : List Char) : List Char := text.dropWhile isBlank

/-- What follows `word`, if the text starts with it. -/
def afterWord? (word text : List Char) : Option (List Char) :=
  if word.isPrefixOf text then some (text.drop word.length) else none

def isDigit (c : Char) : Bool := (Text.asciiDigit? c).isSome

def naturalOf (digits : List Char) : Nat :=
  digits.foldl (fun n c => 10 * n + (c.toNat - '0'.toNat)) 0

/-- The digits of a whole part: a zero alone, or digits that start with none. -/
def readWhole : List Char → Option (List Char × List Char)
  | [] => none
  | c :: rest =>
    if c = '0' then some (['0'], rest)
    else if isDigit c then some (c :: rest.takeWhile isDigit, rest.dropWhile isDigit)
    else none

/-- A point and at least one digit, if the text goes on so. -/
def readFraction (text : List Char) : Option (List Char × List Char) :=
  match text with
  | '.' :: rest =>
    let digits := rest.takeWhile isDigit
    if digits.isEmpty then none else some (digits, rest.dropWhile isDigit)
  | _ => none

/-- An exponent with at least one digit, if the text goes on so. -/
def readExponent (text : List Char) : Option (Int × List Char) :=
  match text with
  | [] => none
  | c :: rest =>
    if c = 'e' ∨ c = 'E' then
      let (negative, rest) :=
        match rest with
        | '-' :: rest => (true, rest)
        | '+' :: rest => (false, rest)
        | rest => (false, rest)
      let digits := rest.takeWhile isDigit
      if digits.isEmpty then none
      else
        let power : Int := naturalOf digits
        some (if negative then -power else power, rest.dropWhile isDigit)
    else none

/-- A number, read as far as it goes. -/
def readNumber (text : List Char) : Option (Value × List Char) :=
  let (negative, unsigned) :=
    match text with
    | '-' :: rest => (true, rest)
    | text => (false, text)
  match readWhole unsigned with
  | none => none
  | some (whole, rest) =>
    let fraction := readFraction rest
    let afterFraction := (fraction.map (·.2)).getD rest
    let exponent := readExponent afterFraction
    if fraction.isNone && exponent.isNone then
      let n : Int := naturalOf whole
      some (.int (if negative then -n else n), rest)
    else
      let digits := (fraction.map (·.1)).getD []
      let power := (exponent.map (·.1)).getD 0
      some (.float (Binary64.ofDecimal negative (naturalOf (whole ++ digits))
          (power - digits.length)),
        (exponent.map (·.2)).getD afterFraction)

def hexValue? (c : Char) : Option Nat :=
  if '0' ≤ c ∧ c ≤ '9' then some (c.toNat - '0'.toNat)
  else if 'a' ≤ c ∧ c ≤ 'f' then some (c.toNat - 'a'.toNat + 10)
  else if 'A' ≤ c ∧ c ≤ 'F' then some (c.toNat - 'A'.toNat + 10)
  else none

def readUnit : List Char → Option (Nat × List Char)
  | a :: b :: c :: d :: rest => do
    let a ← hexValue? a
    let b ← hexValue? b
    let c ← hexValue? c
    let d ← hexValue? d
    return (((a * 16 + b) * 16 + c) * 16 + d, rest)
  | _ => none

/-- The second half of a character that is written as two units. -/
def readLowUnit (text : List Char) : Option (Nat × List Char) := do
  let rest ← afterWord? ['\\', 'u'] text
  let (low, rest) ← readUnit rest
  if 0xDC00 ≤ low ∧ low ≤ 0xDFFF then return (low, rest) else none

/-- The character after a backslash. A unit that is half a character goes with its other half, if
that comes next. Alone it is read as `half`, or not at all if there is none. -/
def readEscape (half : Option Char) : List Char → Option (Char × List Char)
  | [] => none
  | c :: rest =>
    if c = '"' ∨ c = '\\' ∨ c = '/' then some (c, rest)
    else if c = 'n' then some ('\n', rest)
    else if c = 'r' then some ('\r', rest)
    else if c = 't' then some ('\t', rest)
    else if c = 'b' then some (Char.ofNat 8, rest)
    else if c = 'f' then some (Char.ofNat 12, rest)
    else if c = 'u' then do
      let (unit, rest) ← readUnit rest
      if 0xD800 ≤ unit ∧ unit ≤ 0xDBFF then
        match readLowUnit rest with
        | some (low, rest) =>
          return (Char.ofNat (0x10000 + (unit - 0xD800) * 0x400 + (low - 0xDC00)), rest)
        | none => return (← half, rest)
      else if 0xDC00 ≤ unit ∧ unit ≤ 0xDFFF then return (← half, rest)
      else return (Char.ofNat unit, rest)
    else none

/-- The characters of a string after its opening mark. Each turn takes at least one
character, so the text's length is fuel enough. -/
def readCharacters (half : Option Char) : Nat → List Char → Option (List Char × List Char)
  | 0, _ => none
  | _ + 1, [] => none
  | fuel + 1, c :: rest =>
    if c = '"' then some ([], rest)
    else if c = '\\' then do
      let (decoded, rest) ← readEscape half rest
      let (more, rest) ← readCharacters half fuel rest
      return (decoded :: more, rest)
    else if c.toNat < 32 then none
    else do
      let (more, rest) ← readCharacters half fuel rest
      return (c :: more, rest)

def readString (half : Option Char) (text : List Char) : Option (String × List Char) :=
  match text with
  | '"' :: rest => do
    let (characters, rest) ← readCharacters half (rest.length + 1) rest
    return (String.ofList characters, rest)
  | _ => none

def wordValues : List (String × Value) := [
  ("null", .null), ("true", .bool true), ("false", .bool false),
  ("NaN", .float (.nan 0)), ("Infinity", .float (.infinite false)),
  ("-Infinity", .float (.infinite true))]

def readWord (text : List Char) : Option (Value × List Char) :=
  wordValues.findSome? fun word => (afterWord? word.1.toList text).map fun rest => (word.2, rest)

mutual

/-- A value, starting at the first character. -/
def readValue (half : Option Char) : Nat → List Char → Option (Value × List Char)
  | 0, _ => none
  | fuel + 1, text =>
    match text with
    | [] => none
    | c :: rest =>
      if c = '"' then do
        let (s, rest) ← readString half text
        return (.str s, rest)
      else if c = '[' then
        match skipBlanks rest with
        | ']' :: rest => some (.list [], rest)
        | rest => do
          let (items, rest) ← readItems half fuel rest
          return (.list items, rest)
      else if c = Char.ofNat 123 then
        match skipBlanks rest with
        | [] => none
        | next :: after =>
          if next = Char.ofNat 125 then some (.dict [], after)
          else do
            let (entries, rest) ← readEntries half fuel (next :: after)
            return (.dict (Entries.ofPairs entries), rest)
      else (readWord text).or (readNumber text)

/-- The items of an array up to its closing bracket. -/
def readItems (half : Option Char) : Nat → List Char → Option (List Value × List Char)
  | 0, _ => none
  | fuel + 1, text => do
    let (item, rest) ← readValue half fuel text
    match skipBlanks rest with
    | ',' :: rest =>
      let (items, rest) ← readItems half fuel (skipBlanks rest)
      return (item :: items, rest)
    | ']' :: rest => return ([item], rest)
    | _ => none

/-- The entries of an object up to its closing brace. -/
def readEntries (half : Option Char) :
    Nat → List Char → Option (List (Value × Value) × List Char)
  | 0, _ => none
  | fuel + 1, text => do
    let (key, rest) ← readString half text
    let rest ← afterWord? [':'] (skipBlanks rest)
    let (value, rest) ← readValue half fuel (skipBlanks rest)
    match skipBlanks rest with
    | [] => none
    | next :: rest =>
      if next = ',' then
        let (entries, rest) ← readEntries half fuel (skipBlanks rest)
        return ((.str key, value) :: entries, rest)
      else if next = Char.ofNat 125 then return ([(.str key, value)], rest)
      else none

end

/-- The value of a JSON text that holds nothing else but blanks. Each half of a character is read as
`half`. -/
def readWith (half : Option Char) (text : String) : Option Value := do
  let characters := skipBlanks text.toList
  let (value, rest) ← readValue half (characters.length + 1) characters
  if (skipBlanks rest).isEmpty then return value else none

/-- The value of a JSON text in which all characters are whole. -/
def read (text : String) : Option Value := readWith none text

/-- Whether a text is JSON, whole characters or not. -/
def isText (text : String) : Bool := (readWith (some '?') text).isSome

/-- Whether a text is JSON, but some escape in it spells half a character. There is no value for it
then. -/
def spellsHalf (text : String) : Bool := isText text && (read text).isNone

end Motif.Json
