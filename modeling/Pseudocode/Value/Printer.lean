import Pseudocode.Value

/-!
# Values in full

In traces and listings a value is shown with its kind and content, so that text
and number, set and unset can be told apart.
-/

namespace Pseudocode

open Text Numeral

/-- A scalar in full. -/
def Scalar.shown : Scalar → String
  | .integer n => "IntegerValue(value=" ++ toString n.toInt ++ ")"
  | .real x => "RealValue(value=" ++ realText x ++ ")"
  | .boolean b =>
    "BooleanValue(value=" ++ (if b then "True" else "False") ++ ")"
  | .string s => "StringValue(value=" ++ quote s ++ ")"

namespace Value

mutual

/-- A value in full. -/
def shown : Value → String
  | scalar s => s.shown
  | array slots =>
    "ArrayValue(length=" ++ toString slots.length ++ ", slots=["
      ++ ", ".intercalate (slotsShown slots) ++ "])"
  | bare => "Value()"

/-- Slots in full, in order. -/
def slotsShown : List (Option Value) → List String
  | [] => []
  | none :: rest => "None" :: slotsShown rest
  | some v :: rest => shown v :: slotsShown rest

end

end Value

end Pseudocode
