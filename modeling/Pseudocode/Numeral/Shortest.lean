/-!
# The shortest decimal that reads back

A positive binary number `mantissa * 2 ^ exponent` owns an interval of reals
that round to it.  The shortest decimal is found by trying the decimal grids
from coarse to fine: on each grid only the two points around the number can lie
in its interval, and the first grid with a hit has the fewest digits.
-/

namespace Pseudocode.Numeral

/-- A decimal number `digits * 10 ^ exponent`. -/
structure Decimal where
  digits : Nat
  exponent : Int
  deriving Repr, DecidableEq

/-- The numbers that read back as one binary number, over a common
denominator: all between `low` and `high`, the ends too if `closed`. -/
structure Interval where
  low : Nat
  value : Nat
  high : Nat
  denominator : Nat
  closed : Bool

/-- The interval of `mantissa * 2 ^ exponent`, in quarters of the last place.
Below a power of two the neighbour is only half as far away, except at the
smallest exponent. -/
def Interval.of (mantissa : Nat) (exponent : Int) : Interval :=
  let scale := Nat.pow 2 (exponent - 2).toNat
  let below := if mantissa = Nat.pow 2 52 ∧ exponent ≠ -1074 then 1 else 2
  { low := (4 * mantissa - below) * scale
    value := 4 * mantissa * scale
    high := (4 * mantissa + 2) * scale
    denominator := Nat.pow 2 (2 - exponent).toNat
    closed := mantissa % 2 = 0 }

/-- The exponent of the leading digit of `value / denominator`, for numbers
above `10 ^ -330`. -/
def leadingExponent (value denominator : Nat) : Int :=
  let digits := Nat.toDigits 10 (value * Nat.pow 10 330 / denominator)
  (digits.length : Int) - 331

/-- The grid point of the interval nearest to its number, on the grid of
multiples of `10 ^ place`; of two at the same distance, the even one. -/
def Interval.onGrid (i : Interval) (place : Int) : Option Nat :=
  let up := Nat.pow 10 (-place).toNat
  let unit := i.denominator * Nat.pow 10 place.toNat
  let low := i.low * up
  let value := i.value * up
  let high := i.high * up
  let floor := value / unit
  let inside (point : Nat) : Bool :=
    if i.closed then low ≤ point && point ≤ high
    else low < point && point < high
  let below := inside (floor * unit)
  let above := inside ((floor + 1) * unit)
  let rest := value % unit
  match below, above with
  | false, false => none
  | true, false => some floor
  | false, true => some (floor + 1)
  | true, true =>
    if 2 * rest < unit then some floor
    else if unit < 2 * rest then some (floor + 1)
    else if floor % 2 = 0 then some floor
    else some (floor + 1)

/-- The first hit on the grids that give a number with leading exponent `lead`
`count`, `count + 1`, … digits. -/
def Interval.firstHit (i : Interval) (lead : Int) : Nat → Nat → Option Decimal
  | 0, _ => none
  | tries + 1, count =>
    let place := lead - count + 1
    match i.onGrid place with
    | some digits => some ⟨digits, place⟩
    | none => i.firstHit lead tries (count + 1)

/-- Moves trailing zeros of the digits into the exponent. -/
def Decimal.trim : Nat → Decimal → Decimal
  | 0, d => d
  | tries + 1, d =>
    if d.digits ≠ 0 ∧ d.digits % 10 = 0 then
      Decimal.trim tries ⟨d.digits / 10, d.exponent + 1⟩
    else d

/-- The decimal with the fewest digits that reads back as
`mantissa * 2 ^ exponent`, and of those the nearest.  Seventeen digits always
suffice for a binary64 number. -/
def shortest (mantissa : Nat) (exponent : Int) : Decimal :=
  let i := Interval.of mantissa exponent
  let lead := leadingExponent i.value i.denominator
  ((i.firstHit lead 17 1).getD ⟨0, 0⟩).trim 17

end Pseudocode.Numeral
