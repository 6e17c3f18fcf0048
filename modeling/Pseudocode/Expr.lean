import Pseudocode.Value.Arithmetic

/-!
# Expressions

An expression is a literal, a read of a variable or of one slot of it, a sign,
an operator between two operands, or a call.  Parentheses leave no trace.
-/

namespace Pseudocode

/-- Operators that give a truth value: the two connectives, which look at their
right side only if it matters, and the comparisons. -/
inductive Condition where
  | both
  | either
  | compare (comparison : Comparison)
  deriving Repr, DecidableEq, Inhabited

namespace Condition

/-- The symbol of a condition. -/
def symbol : Condition → String
  | both => "&&"
  | either => "||"
  | compare comparison => comparison.symbol

/-- The condition of a symbol. -/
def ofSymbol (symbol : String) : Condition :=
  match symbol with
  | "&&" => both
  | "||" => either
  | symbol => compare (.ofSymbol symbol)

end Condition

/-- What a call refers to: a declaration of the program by its number, or a
function of which nothing but the name is known. -/
inductive Callee where
  | declared (number : Nat)
  | bare (name : String)
  deriving Repr, DecidableEq, Inhabited

/-- Where a variable lives: in a call, or in a module. -/
inductive Home where
  | call
  | module
  deriving Repr, DecidableEq, Inhabited

/-- Where a name stands in a program, and where it was found when the program
was built: the numbers of the module and of the function around it, and the home
of the variable. -/
structure Site where
  module : Nat
  function : Option Nat
  home : Home
  deriving Repr, DecidableEq, Inhabited

/-- An occurrence of a variable's name.  It has a site if it is part of a
program.  A running program looks the name up again. -/
structure Occurrence where
  name : String
  site : Option Site := none
  deriving Repr, DecidableEq, Inhabited

instance : Coe String Occurrence := ⟨fun name => { name }⟩

/-- An expression. -/
inductive Expr where
  /-- A value as it stands. -/
  | literal (value : Value)
  /-- The value of a variable. -/
  | read (target : Occurrence)
  /-- The content of one slot of a variable. -/
  | slot (target : Occurrence) (index : Expr)
  /-- A number with its sign turned. -/
  | sign (symbol : String) (operand : Expr)
  /-- Arithmetic on two operands. -/
  | arithmetic (op : Arithmetic) (left right : Expr)
  /-- A truth value from two operands. -/
  | condition (op : Condition) (left right : Expr)
  /-- The result of a call. -/
  | call (name : String) (callee : Callee) (arguments : List Expr)
  /-- An expression of no further kind. -/
  | blank
  deriving Inhabited

end Pseudocode
