import Motif.Text.Printable

/-!
Quoted text and quoted bytes, as messages show them. The apostrophe is the
quotation mark, unless the text holds an apostrophe and no double quote. The
mark in use and the backslash are escaped by a backslash, and so is every
character that cannot be shown as it is.
-/

namespace Motif.Text

def apostrophe : Char := Char.ofNat 39

def doubleQuote : Char := '"'

/-- A number in lower-case hexadecimal with at least `width` digits. -/
def hexadecimal (width n : Nat) : List Char :=
  let digits := Nat.toDigits 16 n
  List.replicate (width - digits.length) '0' ++ digits

/-- The mark that encloses a text. -/
def quotationMark (text : List Char) : Char :=
  if text.contains apostrophe && !text.contains doubleQuote then doubleQuote else apostrophe

/-- What both kinds of quoted text write for a character that needs no number. -/
def shortEscape? (mark c : Char) : Option (List Char) :=
  if c = mark ∨ c = '\\' then some ['\\', c]
  else if c = '\n' then some ['\\', 'n']
  else if c = '\r' then some ['\\', 'r']
  else if c = '\t' then some ['\\', 't']
  else none

def quotedChar (mark c : Char) : List Char :=
  match shortEscape? mark c with
  | some escape => escape
  | none =>
    if isPrintable c then [c]
    else if c.toNat < 256 then '\\' :: 'x' :: hexadecimal 2 c.toNat
    else if c.toNat < 65536 then '\\' :: 'u' :: hexadecimal 4 c.toNat
    else '\\' :: 'U' :: hexadecimal 8 c.toNat

def quoted (text : String) : String :=
  let chars := text.toList
  let mark := quotationMark chars
  String.ofList (mark :: chars.flatMap (quotedChar mark) ++ [mark])

/-- A byte inside quotation marks: ASCII characters from the space to the tilde stand for
themselves. -/
def quotedByte (mark : Char) (b : UInt8) : List Char :=
  let c := Char.ofNat b.toNat
  match shortEscape? mark c with
  | some escape => escape
  | none => if 32 ≤ b && b < 127 then [c] else '\\' :: 'x' :: hexadecimal 2 b.toNat

/-- Bytes in quotation marks, after the letter that tells them from text. -/
def quotedBytes (bytes : List UInt8) : String :=
  let mark := quotationMark (bytes.map fun b => Char.ofNat b.toNat)
  String.ofList ('b' :: mark :: bytes.flatMap (quotedByte mark) ++ [mark])

end Motif.Text
