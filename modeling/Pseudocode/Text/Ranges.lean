/-!
# Tables of code points

A character class is kept as an ascending list of closed, disjoint ranges of
code points.  Membership stops at the first range that starts beyond the code
point asked about.
-/

namespace Pseudocode.Text

/-- Whether `n` lies in one of the ranges of an ascending table. -/
def inRanges : List (Nat × Nat) → Nat → Bool
  | [], _ => false
  | (lo, hi) :: rest, n =>
    if n < lo then false else if n ≤ hi then true else inRanges rest n

end Pseudocode.Text
