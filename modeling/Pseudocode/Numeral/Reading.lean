import Pseudocode.Text.Blank
import Pseudocode.Text.DecimalDigit

/-!
# Reading numerals

Numerals may stand between blanks, carry a sign, use the decimal digits of any
script, and have single low lines between digits.  An integer numeral has at
most 4300 digits.  A real numeral has digits around an optional point and an
optional exponent, or names an infinity or the missing number.
-/

namespace Pseudocode.Numeral

open Text

/-- Why a text is no integer numeral. -/
inductive NumeralFault where
  /-- The text has not the form of a numeral. -/
  | malformed
  /-- The numeral has so many digits, more than are read. -/
  | tooLong (digits : Nat)
  deriving Repr, DecidableEq

/-- The most digits that an integer numeral may have. -/
def digitLimit : Nat := 4300

/-- The characters of a numeral, every decimal digit as its ASCII twin, without
the blanks around. -/
def plainNumeral (s : String) : List Char :=
  (stripBy isNumeralBlank s.toList).map fun c =>
    match digitValue? c with
    | some d => Nat.digitChar d
    | none => c

/-- Drops the low lines of a numeral; each has to stand between two digits. -/
def joinDigits (last : Option Char) : List Char → Option (List Char)
  | [] => some []
  | '_' :: next :: rest =>
    if (last.any Char.isDigit) && next.isDigit then
      (joinDigits (some next) rest).map (next :: ·)
    else none
  | c :: rest =>
    if c = '_' then none else (joinDigits (some c) rest).map (c :: ·)

/-- Splits a sign off a numeral; `true` stands for minus. -/
def splitSign : List Char → Bool × List Char
  | '-' :: rest => (true, rest)
  | '+' :: rest => (false, rest)
  | cs => (false, cs)

/-- The number that a row of decimal digits denotes. -/
def digitsValue (cs : List Char) : Nat :=
  cs.foldl (fun n c => 10 * n + (c.toNat - '0'.toNat)) 0

/-- An integer with its sign. -/
def signed (negative : Bool) (magnitude : Nat) : Int :=
  if negative then -magnitude else magnitude

/-- Reads an integer numeral. -/
def readInteger (s : String) : Except NumeralFault Int :=
  match joinDigits none (plainNumeral s) with
  | none => .error .malformed
  | some cs =>
    let (negative, digits) := splitSign cs
    if digits.isEmpty || !digits.all Char.isDigit then .error .malformed
    else if digitLimit < digits.length then .error (.tooLong digits.length)
    else .ok (signed negative (digitsValue digits))

/-- Reads the exponent that may end a real numeral. -/
def readExponent : List Char → Option Int
  | [] => some 0
  | mark :: rest =>
    let (negative, digits) := splitSign rest
    if mark ≠ 'e' ∨ digits.isEmpty ∨ !digits.all Char.isDigit then none
    else some (signed negative (digitsValue digits))

/-- The real nearest to `digits * 10 ^ exponent`.  Numbers of more than 400
places on either side of the point are beyond the range of reals. -/
def scaleReal (digits : Nat) (exponent : Int) : Float :=
  let lead := (Nat.toDigits 10 digits).length + exponent
  if digits = 0 ∨ lead < -400 then 0.0
  else if 400 < lead then 1.0 / 0.0
  else Float.ofScientific digits (exponent < 0) exponent.natAbs

/-- Reads the magnitude of a real numeral in lower case. -/
def readMagnitude (cs : List Char) : Option Float :=
  if cs = ['i', 'n', 'f'] ∨ cs = ['i', 'n', 'f', 'i', 'n', 'i', 't', 'y'] then
    some (1.0 / 0.0)
  else if cs = ['n', 'a', 'n'] then some (0.0 / 0.0)
  else
    let whole := cs.takeWhile Char.isDigit
    let rest := cs.dropWhile Char.isDigit
    let (fraction, rest) :=
      match rest with
      | '.' :: rest => (rest.takeWhile Char.isDigit, rest.dropWhile Char.isDigit)
      | rest => ([], rest)
    if whole.isEmpty && fraction.isEmpty then none
    else (readExponent rest).map fun exponent =>
      scaleReal (digitsValue (whole ++ fraction)) (exponent - fraction.length)

/-- Reads a real numeral. -/
def readReal (s : String) : Option Float :=
  match joinDigits none (plainNumeral s) with
  | none => none
  | some cs =>
    let (negative, magnitude) := splitSign cs
    (readMagnitude (magnitude.map Char.toLower)).map fun x =>
      if negative then -x else x

end Pseudocode.Numeral
