import Pseudocode.Text.Ranges

/-!
# Blank characters

Text is stripped of blanks before it is read as a number or a truth value.
Besides the ASCII blanks and the four separator controls U+001C to U+001F, the
class holds the space separators and line ends of Unicode.

A numeral has a slightly smaller class around it: the separator controls are
not skipped there.
-/

namespace Pseudocode.Text

/-- The blank characters, as ranges of code points. -/
def blankRanges : List (Nat × Nat) :=
  [(0x09, 0x0d), (0x1c, 0x20), (0x85, 0x85), (0xa0, 0xa0), (0x1680, 0x1680),
   (0x2000, 0x200a), (0x2028, 0x2029), (0x202f, 0x202f), (0x205f, 0x205f),
   (0x3000, 0x3000)]

/-- Whether `c` is white space. -/
def isBlank (c : Char) : Bool :=
  inRanges blankRanges c.toNat

/-- Whether `c` may surround a numeral. -/
def isNumeralBlank (c : Char) : Bool :=
  isBlank c && !(0x1c ≤ c.toNat && c.toNat ≤ 0x1f)

/-- The characters left when those of a class are dropped at both ends. -/
def stripBy (p : Char → Bool) (cs : List Char) : List Char :=
  ((cs.dropWhile p).reverse.dropWhile p).reverse

/-- The characters of `s` without the blanks at both ends. -/
def strip (s : String) : List Char :=
  stripBy isBlank s.toList

end Pseudocode.Text
