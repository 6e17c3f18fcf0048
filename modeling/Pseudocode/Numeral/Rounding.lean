import Pseudocode.Numeral.Binary64

/-!
# Rounding to an integer

A real becomes an integer by adding one half, itself a real addition, and
cutting towards the number's own side: halves go away from zero.
-/

namespace Pseudocode.Numeral

/-- Why a real has no nearest integer. -/
inductive RoundingFault where
  /-- The real is no number. -/
  | notANumber
  /-- The real is an infinity. -/
  | infinite
  deriving Repr, DecidableEq

/-- Cuts a real to an integer with one of `floorOf` and `ceilOf`. -/
def cutBy (cut : Bool → Nat → Int → Int) (x : Float) :
    Except RoundingFault Int :=
  match Binary64.ofFloat x with
  | .nan => .error .notANumber
  | .infinite _ => .error .infinite
  | .finite negative mantissa exponent => .ok (cut negative mantissa exponent)

/-- The integer next to `x`, a half going away from zero. -/
def roundHalfAway (x : Float) : Except RoundingFault Int :=
  if x ≥ 0 then cutBy Binary64.floorOf (x + 0.5)
  else cutBy Binary64.ceilOf (x - 0.5)

end Pseudocode.Numeral
