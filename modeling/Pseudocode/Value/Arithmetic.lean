import Pseudocode.Value

/-!
# Operators on values

Two integers give an integer, modulo 2^32 and with division cut towards zero.
A real on either side makes both sides reals.  `+` with text on either side
joins texts.  Comparison is of two texts, of two integers or truth values, or of
two numbers as reals; every other pair has no order.

An operator may carry a symbol without a meaning.  It is only found out after
the operands have been looked at.
-/

namespace Pseudocode

/-- The arithmetic operators, and symbols that are none. -/
inductive Arithmetic where
  | add | subtract | multiply | divide
  | other (symbol : String)
  deriving Repr, DecidableEq, Inhabited

/-- The comparisons, and symbols that are none. -/
inductive Comparison where
  | equal | notEqual | less | lessOrEqual | greater | greaterOrEqual
  | other (symbol : String)
  deriving Repr, DecidableEq, Inhabited

namespace Arithmetic

/-- The symbol of an operator. -/
def symbol : Arithmetic → String
  | add => "+"
  | subtract => "-"
  | multiply => "*"
  | divide => "/"
  | other symbol => symbol

/-- The operator of a symbol. -/
def ofSymbol (symbol : String) : Arithmetic :=
  match symbol with
  | "+" => add
  | "-" => subtract
  | "*" => multiply
  | "/" => divide
  | symbol => other symbol

/-- An operator on two integers of 32 bits. -/
def onIntegers (op : Arithmetic) (x y : Int32) : Except Fault Value :=
  match op with
  | add => .ok (.scalar (.integer (x + y)))
  | subtract => .ok (.scalar (.integer (x - y)))
  | multiply => .ok (.scalar (.integer (x * y)))
  | divide =>
    if y = 0 then .error .divisionByZero
    else .ok (.scalar (.integer (x / y)))
  | other symbol => .error (.unknownOperator symbol)

/-- An operator on two reals. -/
def onReals (op : Arithmetic) (x y : Float) : Except Fault Value :=
  match op with
  | add => .ok (.real (x + y))
  | subtract => .ok (.real (x - y))
  | multiply => .ok (.real (x * y))
  | divide =>
    if y == 0.0 then .error .divisionByZero else .ok (.real (x / y))
  | other symbol => .error (.unknownOperator symbol)

end Arithmetic

namespace Comparison

/-- The symbol of a comparison. -/
def symbol : Comparison → String
  | equal => "=="
  | notEqual => "!="
  | less => "<"
  | lessOrEqual => "<="
  | greater => ">"
  | greaterOrEqual => ">="
  | other symbol => symbol

/-- The comparison of a symbol. -/
def ofSymbol (symbol : String) : Comparison :=
  match symbol with
  | "==" => equal
  | "!=" => notEqual
  | "<" => less
  | "<=" => lessOrEqual
  | ">" => greater
  | ">=" => greaterOrEqual
  | symbol => other symbol

/-- Whether a comparison holds of two things of which it is known whether the
first is less, equal or greater. -/
def holds (op : Comparison) (less equal greater : Bool) : Except Fault Bool :=
  match op with
  | .equal => .ok equal
  | .notEqual => .ok !equal
  | .less => .ok less
  | .lessOrEqual => .ok (less || equal)
  | .greater => .ok greater
  | .greaterOrEqual => .ok (greater || equal)
  | .other symbol => .error (.unknownOperator symbol)

end Comparison

namespace Value

/-- Whether a value is text. -/
def isText : Value → Bool
  | scalar (.string _) => true
  | _ => false

/-- Whether a value is an integer or a real. -/
def isNumber : Value → Bool
  | scalar (.integer _) | scalar (.real _) => true
  | _ => false

/-- Whether a value is an integer or a truth value. -/
def isDiscrete : Value → Bool
  | scalar (.integer _) | scalar (.boolean _) => true
  | _ => false

/-- The value of `a op b`. -/
def combine (op : Arithmetic) (a b : Value) : Except Fault Value :=
  if op = .add && (a.isText || b.isText) then do
    let left ← a.toText
    let right ← b.toText
    pure (.string (left ++ right))
  else if !a.isNumber || !b.isNumber then
    let culprit := if a.isNumber then b else a
    .error (culprit.failure .number (.operatorNeedsNumbers op.symbol))
  else
    match a, b with
    | scalar (.integer x), scalar (.integer y) => op.onIntegers x y
    | _, _ => do
      let x ← a.toReal
      let y ← b.toReal
      op.onReals x y

/-- Whether `a op b` holds. -/
def compare (op : Comparison) (a b : Value) : Except Fault Bool :=
  match a, b with
  | scalar (.string x), scalar (.string y) =>
    op.holds (x < y) (x = y) (y < x)
  | _, _ =>
    if a.isDiscrete && b.isDiscrete then do
      let x ← a.toInteger
      let y ← b.toInteger
      op.holds (x < y) (x = y) (y < x)
    else if a.isNumber && b.isNumber then do
      let x ← a.toReal
      let y ← b.toReal
      op.holds (x < y) (x == y) (y < x)
    else .error (b.failure (.kind a.kind) (.incomparable op.symbol))

/-- The value of a number with its sign turned. -/
def negate (symbol : String) (v : Value) : Except Fault Value :=
  match v with
  | scalar (.integer n) => .ok (.scalar (.integer (-n)))
  | scalar (.real x) => .ok (.real (-x))
  | v => .error (v.failure .number (.signNeedsNumber symbol))

end Value

end Pseudocode
