import Pseudocode.Expr.Parser
import Pseudocode.Machine

/-!
# Evaluating expressions

Operands are evaluated from left to right.  An array stays an address while the
rest of its expression is evaluated, so it is read in the state at the moment of
use.

Nesting is bounded: a `Level` can evaluate, execute and call, and each level is
built on the one below it.  `evaluateNode` is one level of expressions.
-/

namespace Pseudocode

/-- What can be done with a given depth of nesting left. -/
structure Level where
  /-- Evaluates an expression in a scope, if there is one. -/
  evaluate : Option Nat → Expr → Exec Operand
  /-- Executes the operator at a place of the forest. -/
  execute : Nat → Exec Unit
  /-- Calls a function. -/
  call : Callee → List Operand → Exec (Option Operand)

/-- The level on which everything is nested too deeply. -/
def Level.bottom : Level where
  evaluate _ _ := Exec.fail .tooDeep
  execute _ := Exec.fail .tooDeep
  call _ _ := Exec.fail .tooDeep

namespace Level

open Exec

/-- The operand that a variable holds.  An expression it is bound to is
evaluated in the scope of the reader. -/
def readVariable (below : Level) (scope : Option Nat) (target : Occurrence) :
    Exec Operand := do
  match scope with
  | none => fail (.unset (.noScope target.name))
  | some id =>
    match (← variableIn id target).binding with
    | none => fail (.unset (.unboundVariable target.name))
    | some (.held operand) => return operand
    | some (.deferred e) => below.evaluate scope e

/-- The content of a slot of an operand. -/
def readSlot (name : String) (array : Operand) (index : Int) :
    Exec Operand := do
  let v ← reveal array
  match v with
  | .array slots =>
    match ← lift (Value.slotAt slots index) with
    | none => fail (.unset (.emptySlot name index))
    | some content => return .value content
  | v => fail (v.failure (.kind .array) (.notIndexable name))

/-- The truth value of an expression. -/
def evaluateTruth (below : Level) (scope : Option Nat) (e : Expr) :
    Exec Bool := do
  let operand ← below.evaluate scope e
  lift (← reveal operand).toBoolean

/-- The integer of an expression. -/
def evaluateInteger (below : Level) (scope : Option Nat) (e : Expr) :
    Exec Int := do
  let operand ← below.evaluate scope e
  integerOf (← reveal operand)

/-- The value of a condition.  A connective looks at its right side only if the
left one does not settle it. -/
def evaluateCondition (below : Level) (scope : Option Nat) (op : Condition)
    (left right : Expr) : Exec Bool := do
  match op with
  | .both =>
    if ← below.evaluateTruth scope left then below.evaluateTruth scope right
    else return false
  | .either =>
    if ← below.evaluateTruth scope left then return true
    else below.evaluateTruth scope right
  | .compare comparison =>
    let a ← below.evaluate scope left
    let b ← below.evaluate scope right
    lift (Value.compare comparison (← reveal a) (← reveal b))

/-- One level of expressions. -/
def evaluateNode (below : Level) (scope : Option Nat) (e : Expr) :
    Exec Operand := do
  tick
  match e with
  | .literal v => return .value v
  | .read target => below.readVariable scope target
  | .slot target index =>
    let array ← below.readVariable scope target
    let index ← below.evaluateInteger scope index
    readSlot target.name array index
  | .sign symbol operand =>
    let a ← below.evaluate scope operand
    return .value (← lift ((← reveal a).negate symbol))
  | .arithmetic op left right =>
    let a ← below.evaluate scope left
    let b ← below.evaluate scope right
    return .value (← lift (Value.combine op (← reveal a) (← reveal b)))
  | .condition op left right =>
    return .value (.boolean (← below.evaluateCondition scope op left right))
  | .call name callee arguments =>
    let operands ← arguments.mapM (below.evaluate scope)
    match ← below.call callee operands with
    | some result => return result
    | none => fail (.execution (.noResult name))
  | .blank => fail .notEvaluable

/-- The name of a function of which only the name is known. -/
def calleeName : Callee → String
  | .declared _ => ""
  | .bare name => name

/-- Expressions alone: nothing can be executed or called. -/
def plain : Nat → Level
  | 0 => bottom
  | depth + 1 =>
    { bottom with
      evaluate := (plain depth).evaluateNode
      call := fun callee _ =>
        fail (.execution (.callOutside (calleeName callee))) }

end Level

/-- How deeply evaluation, execution and calls may be nested in all. -/
def levelLimit : Nat := 1000

namespace Machine

/-- The value of an expression on a machine that does not run a program. -/
def evaluate (m : Machine) (scope : Option Nat) (e : Expr) :
    Except Halt Value :=
  let x : Exec Value := do
    let operand ← (Level.plain levelLimit).evaluate scope e
    Exec.reveal operand
  match x { m with ticks := allotment } with
  | .ok v _ => .ok v
  | .error halt _ => .error halt

/-- The names that an expression can use in a scope, if there is one. -/
def namesIn (m : Machine) (scope : Option Nat) : Names :=
  .variablesOnly fun name =>
    scope.any fun id => (m.environment.find? id name).isSome

/-- The value of tokens that are one expression. -/
def calculate (m : Machine) (scope : Option Nat) (tokens : List Token) :
    Except Halt Value :=
  match Expr.parseAll (m.namesIn scope) tokens with
  | .error fault => .error (.fault fault)
  | .ok e => m.evaluate scope e

end Machine

end Pseudocode
