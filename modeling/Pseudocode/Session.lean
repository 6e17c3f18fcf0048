import Pseudocode.Machine.Execute
import Pseudocode.Position
import Pseudocode.Program.Parser

/-!
# Sessions

A session keeps one machine for one program and takes commands one at a time: run
everything, open and close the scope of a module, execute a single operator, call
a function, evaluate an expression, assign.  A command that fails leaves the
session usable.
-/

namespace Pseudocode

open Exec

/-- A command of a session. -/
inductive Command where
  /-- Runs the program. -/
  | run
  /-- Opens a scope for the module at a position. -/
  | openModule (module : Int)
  /-- Closes the innermost scope. -/
  | closeScope
  /-- Executes the operator at a position. -/
  | execute (index : Int)
  /-- Calls a function of a module, or a method of one of its classes. -/
  | call (module : Int) (owner : Option String) (name : String)
    (arguments : List Value)
  /-- Evaluates an expression with the names of a module. -/
  | evaluate (module : Int) (source : String)
  /-- Assigns to a variable or to one of its slots. -/
  | assign (name : String) (element : Option Expr) (value : Value)
  /-- Shows the innermost scope. -/
  | showScope

/-- What a command gives. -/
inductive Reply where
  | done
  | result (value : Option Value)
  | scope (shown : String)

namespace Program

/-- The number of the module at a position. -/
def moduleAt (p : Program) (module : Int) : Exec Nat :=
  lift (position p.modules.size module)

/-- The names that an expression can use in a scope of a module. -/
def namesIn (p : Program) (env : Environment) (scope module : Nat) :
    Names where
  resolve name :=
    if (env.find? scope name).isSome then some name else none
  function name := p.findFunction module name
  method owner name := p.findMethod module owner name

/-- Carries out a command. -/
def perform (p : Program) : Command → Exec Reply
  | .run => do
    p.run
    return .done
  | .openModule module => do
    let number ← p.moduleAt module
    let name := ((p.modules[number]?).map ModuleDeclaration.name).getD ""
    let scope ← pushScope none name Variables.empty
    modify fun m => m.recordModule name scope
    return .done
  | .closeScope => do
    if (← get).frames.isEmpty then fail .missingPosition
    modify Machine.popScope
    return .done
  | .execute index => do
    p.level.execute (← lift (position p.forest.size index))
    return .done
  | .call module owner name arguments => do
    let number ← p.moduleAt module
    let callee ← lift <|
      match owner with
      | none => p.findFunction number name
      | some owner => p.findMethod number owner name
    match ← p.level.call callee (arguments.map .value) with
    | none => return .result none
    | some operand => return .result (some (← reveal operand))
  | .evaluate module source => do
    let tokens ← lift (Token.ofText source)
    let number ← p.moduleAt module
    let scope ← activeScope
    let names := p.namesIn (← get).environment scope number
    let (e, _) ← lift (Expr.parse names tokens)
    let operand ← p.level.evaluate (some scope) e
    return .result (some (← reveal operand))
  | .assign name element value => do
    p.level.assign name element (.value value)
    return .done
  | .showScope => do
    let scope ← activeScope
    return .scope ((← get).environment.scope scope).shown

/-- Carries out a command on a machine: what it gives, and the machine
afterwards. -/
def performOn (p : Program) (command : Command) (m : Machine) :
    Except Halt Reply × Machine :=
  match p.perform command m with
  | .ok reply m => (.ok reply, m)
  | .error halt m => (.error halt, m)

end Program

end Pseudocode
