import Pseudocode.Expr
import Pseudocode.Value.Printer

/-!
# Expressions in full

Traces and listings show an expression with the kind and the parts of every
node.
-/

namespace Pseudocode.Expr

open Text

mutual

/-- An expression in full. -/
def shown : Expr → String
  | literal value => "ValueExpression(value=" ++ value.shown ++ ")"
  | read target => "VariableExpression(name=" ++ quote target.name ++ ")"
  | slot target index =>
    "IndexExpression(name=" ++ quote target.name ++ ", index=" ++ shown index
      ++ ")"
  | sign symbol operand =>
    "UnaryExpression(op=" ++ quote symbol ++ ", operand=" ++ shown operand
      ++ ")"
  | arithmetic op left right =>
    "BinaryExpression(op=" ++ quote op.symbol ++ ", left=" ++ shown left
      ++ ", right=" ++ shown right ++ ")"
  | condition op left right =>
    "ConditionalExpression(op=" ++ quote op.symbol ++ ", left=" ++ shown left
      ++ ", right=" ++ shown right ++ ")"
  | call name _ arguments =>
    "CallExpression(name=" ++ quote name ++ ", arguments=["
      ++ ", ".intercalate (shownList arguments) ++ "])"
  | blank => "Expression()"

/-- Expressions in full, in order. -/
def shownList : List Expr → List String
  | [] => []
  | e :: rest => shown e :: shownList rest

end

end Pseudocode.Expr
