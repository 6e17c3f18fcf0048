/-!
# Real numbers taken apart

A binary64 number is not a number, an infinity, or a sign with a magnitude
`mantissa * 2 ^ exponent` in whole numbers.  Every exact question about a real
(its text, its integer part) is answered on the parts.
-/

namespace Pseudocode.Numeral

/-- What the 64 bits of a real stand for. -/
inductive Binary64 where
  /-- No number. -/
  | nan
  /-- Beyond every number, on one side. -/
  | infinite (negative : Bool)
  /-- The number `± mantissa * 2 ^ exponent`. -/
  | finite (negative : Bool) (mantissa : Nat) (exponent : Int)
  deriving Repr, DecidableEq

namespace Binary64

/-- The parts of a real.  The leading bit of the mantissa is implied unless the
exponent field is zero. -/
def ofFloat (x : Float) : Binary64 :=
  let bits := x.toBits.toNat
  let negative : Bool := bits / Nat.pow 2 63 = 1
  let field : Nat := bits / Nat.pow 2 52 % Nat.pow 2 11
  let fraction := bits % Nat.pow 2 52
  if field = 2047 then
    if fraction = 0 then .infinite negative else .nan
  else if field = 0 then .finite negative fraction (-1074)
  else .finite negative (Nat.pow 2 52 + fraction) ((field : Int) - 1075)

/-- The largest integer not above `± mantissa * 2 ^ exponent`. -/
def floorOf (negative : Bool) (mantissa : Nat) (exponent : Int) : Int :=
  let signed : Int := if negative then -mantissa else mantissa
  if 0 ≤ exponent then signed * (Nat.pow 2 exponent.toNat : Nat)
  else signed.fdiv (Nat.pow 2 (-exponent).toNat : Nat)

/-- The smallest integer not below `± mantissa * 2 ^ exponent`. -/
def ceilOf (negative : Bool) (mantissa : Nat) (exponent : Int) : Int :=
  -floorOf (!negative) mantissa exponent

end Binary64

end Pseudocode.Numeral
