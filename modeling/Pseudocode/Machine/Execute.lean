import Pseudocode.Machine.Evaluate
import Pseudocode.Program

/-!
# Executing operators and calls

An operator is executed by its place in the program's forest.  A module runs in
a scope of its own.  A call runs in a new scope inside the scope of the
function's module, so it never sees the variables of its caller; the scope is
cleared and closed when the call ends, however it ends.

Every value that a variable takes, at its declaration, by assignment, as a
parameter or as a result, is converted to the declared type first, which also
makes arrays independent copies.
-/

namespace Pseudocode

/-- Whether a fault already says which call failed. -/
def Fault.isExecution : Fault → Bool
  | execution _ | failedIn .. | badResult .. => true
  | _ => false

/-- Whether a fault is one of the program that is run. -/
def Fault.isOwn : Fault → Bool
  | parse _ | undeclared .. | redeclared .. | conversion _ | configuration _
  | indexOutOfRange .. | unset _ | divisionByZero => true
  | fault => fault.isExecution

/-- How a fault in the body of a function leaves the call: a fault of the
program is wrapped once, by the innermost call. -/
def Fault.leaving (function : String) (fault : Fault) : Fault :=
  if fault.isExecution then fault
  else if fault.isOwn then .failedIn function fault
  else
    match fault with
    | .tooDeep => .execution (.callTooDeep function)
    | fault => fault

/-- How a failure to convert a result leaves the call. -/
def Fault.ofResult (function : String) : Fault → Fault
  | .conversion fault => .badResult function fault
  | fault => fault

namespace Level

open Exec

/-- Executes the operators at some places one after the other. -/
def executeAll (below : Level) : List Nat → Exec Unit
  | [] => tick
  | index :: rest => do
    below.execute index
    executeAll below rest

/-- Whether a guard holds: its integer is not zero. -/
def testGuard (below : Level) (guard : Expr) : Exec Bool := do
  let scope ← activeScope
  let holds := (← below.evaluateInteger (some scope) guard) ≠ 0
  trace 3 fun _ =>
    .ok ("guard " ++ guard.shown ++ " -> "
      ++ (if holds then "True" else "False"))
  return holds

/-- Executes a declaration. -/
def executeDeclaration (below : Level) (t : DeclaredType) (name : String)
    (initial : Option Expr) : Exec Unit := do
  let operand ←
    match initial with
    | some e => below.evaluate (some (← activeScope)) e
    | none => do pure (.value (← lift (Value.initial t)))
  let held ← convert operand t
  declareHere t name held
  trace 2 fun m => do
    return "declare " ++ name ++ ": " ++ t.text ++ " = " ++ (← m.textOf held)

/-- Assigns to a whole variable. -/
def assignVariable (target : Occurrence) (value : Operand) : Exec Unit := do
  let scope ← activeScope
  let held ← convert value (← variableIn scope target).type
  rebind scope target.name held
  trace 2 fun m => do
    return "let " ++ target.name ++ " = " ++ (← m.textOf value)

/-- Assigns to one slot of a variable: of the array that the variable holds
before the index is evaluated. -/
def assignSlot (below : Level) (target : Occurrence) (element : Expr)
    (value : Operand) : Exec Unit := do
  let scope ← activeScope
  let type := (← variableIn scope target).type
  let array ← below.readVariable (some scope) target
  match array, type.isArray with
  | .cell address, true =>
    let index ← below.evaluateInteger (some scope) element
    let content ← converted (← reveal value) type.element
    setSlot address index content
    trace 2 fun m => do
      return "let " ++ target.name ++ "[" ++ toString index ++ "] = "
        ++ (← m.textOf value)
  | _, _ =>
    fail ((← reveal array).failure (.kind .array) (.notIndexable target.name))

/-- Assigns to a variable or to one of its slots. -/
def assign (below : Level) (target : Occurrence) (element : Option Expr)
    (value : Operand) : Exec Unit :=
  match element with
  | none => assignVariable target value
  | some e => below.assignSlot target e value

/-- Reads an answer into a variable. -/
def executeInput (target : Occurrence) : Exec Unit := do
  let scope ← activeScope
  let type := (← variableIn scope target).type
  if type.isArray then
    fail (.conversion ⟨.scalar .string, .declared type, .arrayInput⟩)
  let answer ← nextAnswer target.name type
  let held ← convert (.value (.string answer)) type
  rebind scope target.name held
  trace 2 fun m => do
    return "input " ++ target.name ++ " = " ++ (← m.textOf held)

/-- Writes an operand.  The output takes every text: none holds a lone surrogate, and
writing itself does not fail. -/
def write (operand : Operand) : Exec Unit := do
  emit (.written operand (← lift ((← get).textOf operand)))

/-- Executes the first branch whose guard holds, if any. -/
def executeBranches (forest : Forest Operator) (below : Level)
    (fallback : Option Nat) : List Nat → Exec Unit
  | [] =>
    match fallback with
    | none => return
    | some index => below.executeAll (forest.children index)
  | index :: rest => do
    match (forest.nodes[index]?).map Node.operator with
    | some (.elseIf guard) =>
      if ← below.testGuard guard then
        below.executeAll (forest.children index)
      else executeBranches forest below fallback rest
    | _ => fail .missingPosition

/-- One level of operators. -/
def executeNode (p : Program) (below : Level) (index : Nat) : Exec Unit := do
  tick
  match p.forest.nodes[index]? with
  | none => fail .missingPosition
  | some node =>
    trace 1 fun m =>
      .ok ("exec " ++ Captioned.line node.operator ++ " depth="
        ++ toString m.frames.length)
    let nested := below.executeAll (p.forest.children index)
    match node.operator with
    | .module name _ =>
      within none name Variables.empty fun scope => do
        modify fun m => m.recordModule name scope
        nested
    | .beginning => nested
    | .branch guard =>
      if ← below.testGuard guard then nested
      else
        executeBranches p.forest below node.links.fallback
          node.links.alternatives
    | .loop guard => Exec.loop (below.testGuard guard) nested
    | .declaration t name initial => below.executeDeclaration t name initial
    | .assignment target element value =>
      let operand ← below.evaluate (some (← activeScope)) value
      below.assign target element operand
    | .input target => executeInput target
    | .output value => write (← below.evaluate (some (← activeScope)) value)
    | .call _ callee arguments =>
      let operands ← arguments.mapM fun e => do
        below.evaluate (some (← activeScope)) e
      let _ ← below.call callee operands
    | .giveBack result =>
      let operand ←
        match result with
        | none => pure none
        | some e => do pure (some (← below.evaluate (some (← activeScope)) e))
      tick
      throw (.returned operand)
    | .function .. | .method .. | .classDeclaration .. => return
    | .elseIf _ | .elseBranch => fail .notExecutable

/-- The variables that a call starts with: each parameter bound to its argument,
converted to the declared type. -/
def bindParameters : List Parameter → List Operand → Variables → Exec Variables
  | p :: parameters, a :: arguments, bound => do
    let held ← convert a p.type
    let bound ← lift (bound.declare p.name ⟨p.type, some (.held held)⟩)
    bindParameters parameters arguments bound
  | _, _, bound => return bound

/-- What the body of a function gives back, or how its failure leaves the
call. -/
def bodyResult (function : String) : Except Halt Unit → Exec (Option Operand)
  | .ok () => return none
  | .error (.returned result) => return result
  | .error (.fault fault) => fail (fault.leaving function)
  | .error .suspended => throw .suspended

/-- Runs the body of a function to its end: what it gives back. -/
def runBody (function : String) (body : Exec Unit) : Exec (Option Operand) := do
  bodyResult function (← attempt body)

/-- The result of a call, converted to the declared type. -/
def callResult (f : FunctionDeclaration) (result : Option Operand) :
    Exec (Option Operand) := do
  match f.result with
  | none => return none
  | some type =>
    match result with
    | none => fail (.execution (.noReturn f.fullName))
    | some operand =>
      let v ← reveal operand
      let outcome := (v.convert type).mapError (Fault.ofResult f.fullName)
      return some (← keep (← settle ⟨v, type⟩ outcome))

/-- Calls a function with as many arguments as it has parameters. -/
def enterCall (p : Program) (below : Level) (f : FunctionDeclaration)
    (arguments : List Operand) : Exec (Option Operand) := do
  let module ← moduleScope f.module
  let bound ← bindParameters f.parameters arguments Variables.empty
  within (some module) f.fullName bound fun _ => do
    trace 2 fun m =>
      .ok ("call " ++ f.fullName ++ " depth=" ++ toString m.frames.length)
    let result ←
      runBody f.fullName (below.executeAll (p.forest.siblings f.body))
    callResult f result

/-- One level of calls. -/
def callNode (p : Program) (below : Level) (callee : Callee)
    (arguments : List Operand) : Exec (Option Operand) := do
  let f := p.function callee
  if arguments.length ≠ f.parameters.length then
    fail (.execution
      (.wrongArity f.fullName f.parameters.length arguments.length))
  enterCall p below f arguments

/-- A running program. -/
def running (p : Program) : Nat → Level
  | 0 => bottom
  | depth + 1 =>
    let below := running p depth
    { evaluate := below.evaluateNode
      execute := executeNode p below
      call := callNode p below }

end Level

namespace Program

/-- What a running program can do at the top. -/
def level (p : Program) : Level := Level.running p levelLimit

/-- Traces the outline of a program. -/
def traceOutline (p : Program) : Exec Unit := do
  if 1 ≤ (← get).verbosity then
    let lines ← Exec.lift p.forest.outline
    lines.forM fun line => Exec.trace 1 fun _ => .ok ("tree " ++ line)

/-- Runs a program: its modules one after the other.  The trace is closed
behind it. -/
def run (p : Program) : Exec Unit := do
  p.traceOutline
  let modules : Exec Unit := p.forest.roots.forM p.level.execute
  modules.andThenTidy Machine.closeTrace

/-- Runs a program on a machine: how it ends, and the machine afterwards. -/
def runOn (p : Program) (m : Machine) : Except Halt Unit × Machine :=
  match p.run m with
  | .ok () m => (.ok (), m)
  | .error halt m => (.error halt, m)

end Program

end Pseudocode
