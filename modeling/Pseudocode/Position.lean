import Pseudocode.Fault

/-!
# Positions counted from either end

A position in a row of `size` things is counted from 0, or, if it is negative,
back from the end.
-/

namespace Pseudocode

/-- The position that a number means in a row of a given size. -/
def position (size : Nat) (n : Int) : Except Fault Nat :=
  let fromStart := if n < 0 then n + size else n
  if 0 ≤ fromStart ∧ fromStart < size then .ok fromStart.toNat
  else .error .missingPosition

end Pseudocode
