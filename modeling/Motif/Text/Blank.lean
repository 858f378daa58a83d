/-!
Blank characters: those with the white-space property, over all scripts.
-/

namespace Motif.Text

/-- The first and last code point of each run of blank characters. -/
def blankRuns : List (Nat × Nat) := [
  (9, 13), (28, 32), (133, 133), (160, 160), (5760, 5760), (8192, 8202),
  (8232, 8233), (8239, 8239), (8287, 8287), (12288, 12288)]

def isBlank (c : Char) : Bool :=
  blankRuns.any fun run => run.1 ≤ c.toNat && c.toNat ≤ run.2

/-- Whether a character may surround a number: a blank, except for the four ASCII
separators of files, groups, records and units. -/
def isPadding (c : Char) : Bool :=
  isBlank c && !(28 ≤ c.toNat && c.toNat ≤ 31)

/-- A text without the leading and closing characters of a class. -/
def strip (class? : Char → Bool) (text : List Char) : List Char :=
  ((text.dropWhile class?).reverse.dropWhile class?).reverse

end Motif.Text
