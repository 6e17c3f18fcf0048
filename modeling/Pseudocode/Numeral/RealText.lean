import Pseudocode.Numeral.Binary64
import Pseudocode.Numeral.Shortest

/-!
# The text of a real

A real is written with the fewest digits that read back.  Numbers whose leading
digit stands at an exponent from -4 to 15 are written positionally and always
keep a point; all others with a signed exponent of at least two digits.
-/

namespace Pseudocode.Numeral

/-- Which leading exponents are written positionally, and how wide the others
are at least. -/
structure RealLayout where
  lowest : Int
  highest : Int
  exponentWidth : Nat

/-- The layout of reals in output and messages. -/
def realLayout : RealLayout := ⟨-4, 15, 2⟩

/-- Decimal digits with a point after the first `point` of them, zeros filled in
on either side. -/
def positional (digits : List Char) (point : Int) : List Char :=
  if point ≤ 0 then
    '0' :: '.' :: List.replicate (-point).toNat '0' ++ digits
  else if digits.length ≤ point.toNat then
    digits ++ List.replicate (point.toNat - digits.length) '0' ++ ['.', '0']
  else digits.take point.toNat ++ '.' :: digits.drop point.toNat

/-- Decimal digits with a point after the first, and an exponent. -/
def scientific (width : Nat) (digits : List Char) (exponent : Int) :
    List Char :=
  let mantissa :=
    match digits with
    | first :: second :: rest => first :: '.' :: second :: rest
    | short => short
  let magnitude := Nat.toDigits 10 exponent.natAbs
  let sign := if exponent < 0 then '-' else '+'
  mantissa ++ 'e' :: sign
    :: List.replicate (width - magnitude.length) '0' ++ magnitude

/-- A decimal in a layout. -/
def Decimal.text (layout : RealLayout) (d : Decimal) : List Char :=
  let digits := Nat.toDigits 10 d.digits
  let lead := d.exponent + digits.length - 1
  if layout.lowest ≤ lead ∧ lead ≤ layout.highest then
    positional digits (lead + 1)
  else scientific layout.exponentWidth digits lead

/-- The text of a real. -/
def realText (x : Float) : String :=
  match Binary64.ofFloat x with
  | .nan => "nan"
  | .infinite negative => if negative then "-inf" else "inf"
  | .finite negative mantissa exponent =>
    let sign := if negative then ['-'] else []
    let magnitude :=
      if mantissa = 0 then ['0', '.', '0']
      else (shortest mantissa exponent).text realLayout
    String.ofList (sign ++ magnitude)

end Pseudocode.Numeral
