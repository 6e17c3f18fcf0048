import Pseudocode.Environment

/-!
# The machine that runs programs

The state of a run: all scopes, the stack of frames, the scope of each module
that has been started, the arrays, the answers still to be read, and a log of
what came out.

A run is allotted a number of ticks and is suspended, just as it stands, when
they are used up.  So every state that a run passes through is the last state of
a run with fewer ticks.  Of a conversion that fails the machine keeps what was to be
converted.

Whatever is written, to the log or to the trace, is text that can be written: texts
hold no lone surrogates, and a console or a file never refuses what it is given.
-/

namespace Pseudocode

/-- What came out of a run, in order. -/
inductive Event where
  /-- An output statement: the operand, and its text at that moment. -/
  | written (operand : Operand) (text : String)
  /-- A prompt before an answer was read. -/
  | prompted (text : String)
  /-- A message to the trace. -/
  | traced (message : String)
  /-- A message after the trace was closed. -/
  | noticed (message : String)

/-- A variable about to be looked up in a scope. -/
structure Access where
  scope : Nat
  target : Occurrence
  deriving Repr, DecidableEq

/-- A value that is to become one of a declared type. -/
structure Conversion where
  value : Value
  type : DeclaredType

/-- The state of a run. -/
structure Machine where
  environment : Environment := {}
  /-- The numbers of the open scopes, the innermost first. -/
  frames : List Nat := []
  /-- The scope of each module started so far, in order of first start. -/
  modules : List (String × Nat) := []
  store : Store := {}
  answers : List String := []
  /-- Whether answers are asked for by a prompt. -/
  interactive : Bool := false
  log : Array Event := #[]
  /-- How much is traced. -/
  verbosity : Nat := 0
  /-- Whether the trace is still open. -/
  tracing : Bool := true
  /-- How many steps are left. -/
  ticks : Nat := 0
  /-- What a suspended run was about to look up, if that was its next step. -/
  pending : Option Access := none
  /-- The conversion that failed, if one did. -/
  refused : Option Conversion := none

/-- Why a computation ends early. -/
inductive Halt where
  | fault (fault : Fault)
  /-- A function gives back its result. -/
  | returned (result : Option Operand)
  /-- The ticks are used up. -/
  | suspended

/-- The text of an operand at this moment. -/
def Machine.textOf (m : Machine) (operand : Operand) : Except Fault String :=
  (m.store.reveal operand).toText

/-- A computation of the machine.  The state is kept when it ends early. -/
abbrev Exec := EStateM Halt Machine

namespace Exec

/-- Fails. -/
def fail (fault : Fault) : Exec α := throw (.fault fault)

/-- A result that may be a failure. -/
def lift : Except Fault α → Exec α
  | .ok a => return a
  | .error fault => fail fault

/-- Uses up one tick; `next` is the variable that is looked up then, if any. -/
def tick (next : Option Access := none) : Exec Unit := fun m =>
  match m.ticks with
  | 0 => .error .suspended { m with pending := next }
  | ticks + 1 => .ok () { m with ticks }

/-- Keeps a conversion that fails. -/
def refuse (c : Conversion) : Exec Unit :=
  modify fun m => { m with refused := some c }

/-- What comes of a conversion, which is kept if that is a failure. -/
def settle (c : Conversion) : Except Fault α → Exec α
  | .ok a => return a
  | .error fault => do
    refuse c
    fail fault

/-- The outcome of a computation, whether or not it ends early. -/
def attempt (x : Exec α) : Exec (Except Halt α) := fun m =>
  match x m with
  | .ok a m => .ok (.ok a) m
  | .error halt m => .ok (.error halt) m

/-- Ends as another computation did, a tick later. -/
def endAs : Except Halt α → Exec α
  | .ok a => do
    tick
    return a
  | .error .suspended => throw .suspended
  | .error halt => do
    tick
    throw halt

/-- A computation that uses up a tick when it ends, however it ends. -/
def thenTick (x : Exec α) : Exec α := do
  endAs (← attempt x)

/-- A computation with something to tidy up behind it, however it ends; a
suspended computation is left as it stands. -/
def andThenTidy (x : Exec α) (tidy : Machine → Machine) : Exec α := fun m =>
  match x m with
  | .ok a m => .ok a (tidy m)
  | .error .suspended m => .error .suspended m
  | .error halt m => .error halt (tidy m)

/-- Repeats a body while a guard holds, at most so often. -/
def repeatWhile (guard : Exec Bool) (body : Exec Unit) : Nat → Exec Unit
  | 0 => throw .suspended
  | limit + 1 => do
    if ← guard then
      body
      repeatWhile guard body limit

/-- Repeats a body while a guard holds.  A round uses up a tick, so there are no
more rounds than ticks. -/
def loop (guard : Exec Bool) (body : Exec Unit) : Exec Unit := fun m =>
  repeatWhile guard body (m.ticks + 1) m

/-- The value that an operand stands for at this moment. -/
def reveal (operand : Operand) : Exec Value := do
  return (← get).store.reveal operand

/-- Keeps a value for a variable; an array gets a cell of its own. -/
def keep (v : Value) : Exec Operand := do
  let m ← get
  let (operand, store) := m.store.keep v
  set { m with store }
  return operand

/-- A value as one of a declared type. -/
def converted (v : Value) (t : DeclaredType) : Exec Value :=
  settle ⟨v, t⟩ (v.convert t)

/-- A value as an integer. -/
def integerOf (v : Value) : Exec Int :=
  settle ⟨v, ⟨.integer, none⟩⟩ v.toInteger

/-- The value of an operand as one of a declared type, kept for a variable. -/
def convert (operand : Operand) (t : DeclaredType) : Exec Operand := do
  keep (← converted (← reveal operand) t)

/-- The innermost open scope. -/
def activeScope : Exec Nat := do
  match (← get).frames with
  | [] => fail (.execution .noActiveScope)
  | scope :: _ => return scope

/-- The scope of a module that has been started. -/
def moduleScope (name : String) : Exec Nat := do
  match (← get).modules.lookup name with
  | none => fail (.execution (.moduleNotRunning name))
  | some scope => return scope

/-- The variable that a name means in a scope. -/
def variableIn (scope : Nat) (target : Occurrence) : Exec Variable := do
  tick (some ⟨scope, target⟩)
  lift ((← get).environment.lookup scope target.name)

/-- Changes the environment, if that is possible. -/
def updateEnvironment (change : Environment → Except Fault Environment) :
    Exec Unit := do
  let m ← get
  set { m with environment := ← lift (change m.environment) }

/-- Opens a scope inside another one, if given, and makes it the innermost. -/
def pushScope (parent : Option Nat) (name : String) (vars : Variables) :
    Exec Nat := do
  let m ← get
  let (scope, environment) := m.environment.enter parent name vars
  set { m with environment, frames := scope :: m.frames }
  return scope

/-- Declares a variable in the innermost scope, or binds it anew if it is there
already, as in a loop. -/
def declareHere (t : DeclaredType) (name : String) (held : Operand) :
    Exec Unit := do
  let scope ← activeScope
  updateEnvironment fun env =>
    if (env.scope scope).vars.has name then
      .ok (env.modifyVariables scope fun v => v.rebind name (.held held))
    else env.declare scope name ⟨t, some (.held held)⟩

/-- Binds the variable that a name means in a scope anew. -/
def rebind (scope : Nat) (name : String) (held : Operand) : Exec Unit :=
  updateEnvironment fun env => env.rebind scope name (.held held)

/-- Sets one slot of the array in a cell. -/
def setSlot (address : Nat) (index : Int) (content : Value) : Exec Unit := do
  let m ← get
  let slots ←
    lift (Value.setSlotAt (m.store.slots address) index (some content))
  set { m with store := m.store.write address slots }

/-- Adds to the log. -/
def emit (event : Event) : Exec Unit :=
  modify fun m => { m with log := m.log.push event }

/-- Traces a message about the machine from some verbosity on; below, it is not
even made.  The trace takes every message, as the output does. -/
def trace (level : Nat) (message : Machine → Except Fault String) :
    Exec Unit := do
  let m ← get
  if level ≤ m.verbosity then
    let text ← lift (message m)
    emit (if m.tracing then .traced text else .noticed text)

/-- The next answer for a variable. -/
def nextAnswer (name : String) (t : DeclaredType) : Exec String := do
  let m ← get
  if m.interactive then emit (.prompted (name ++ " (" ++ t.text ++ "): "))
  match m.answers with
  | [] =>
    fail (.execution (if m.interactive then .inputEnded name else .noAnswer name))
  | answer :: answers =>
    modify fun m => { m with answers }
    return answer

end Exec

namespace Machine

/-- The ticks that a run is given when nothing else is asked for: more than any
run of practical length uses. -/
def allotment : Nat := 1000000000000

/-- A machine before a run that takes its answers from a list. -/
def scripted (answers : List String) (verbosity : Nat) : Machine :=
  { answers, verbosity, ticks := allotment }

/-- A machine before a run at a console: it asks for each answer. -/
def console (answers : List String) (verbosity : Nat) : Machine :=
  { scripted answers verbosity with interactive := true }

/-- Closes the innermost scope: its variables are forgotten. -/
def popScope (m : Machine) : Machine :=
  match m.frames with
  | [] => m
  | scope :: frames =>
    { m with environment := m.environment.clear scope, frames }

/-- Closes the trace. -/
def closeTrace (m : Machine) : Machine := { m with tracing := false }

/-- Records the scope of a module that starts; a later start of a module of the
same name takes its place. -/
def recordModule (m : Machine) (name : String) (scope : Nat) : Machine :=
  let modules :=
    if (m.modules.lookup name).isSome then
      m.modules.map fun entry => if entry.1 = name then (name, scope) else entry
    else m.modules ++ [(name, scope)]
  { m with modules }

/-- The operands written since the log had a given length. -/
def outputsFrom (m : Machine) (start : Nat) : List Operand :=
  (m.log.toList.drop start).filterMap fun
    | .written operand _ => some operand
    | _ => none

/-- The operands written. -/
def outputs (m : Machine) : List Operand := m.outputsFrom 0

/-- The texts of the operands written, each at the moment it was written. -/
def printed (m : Machine) : List String :=
  m.log.toList.filterMap fun
    | .written _ text => some text
    | _ => none

/-- The messages of the trace. -/
def traceMessages (m : Machine) : List String :=
  m.log.toList.filterMap fun
    | .traced message => some message
    | _ => none

/-- The lines of the trace; a message may have several. -/
def traceLines (m : Machine) : List String :=
  m.traceMessages.flatMap fun message => message.splitOn "\n"

/-- What a console showed since the log had a given length: prompts, outputs if
they go there, and messages behind the end of the trace. -/
def consoleFrom (m : Machine) (start : Nat) (withOutputs : Bool) : String :=
  (m.log.toList.drop start).foldl (fun text event =>
    match event with
    | .written _ line => if withOutputs then text ++ line ++ "\n" else text
    | .prompted prompt => text ++ prompt
    | .noticed message => text ++ message ++ "\n"
    | .traced _ => text) ""

end Machine

/-- A computation in a new scope inside another one, if given; it is told the
new scope's number.  The scope is closed a tick behind it, however it ends. -/
def Exec.within (parent : Option Nat) (name : String) (vars : Variables)
    (x : Nat → Exec α) : Exec α := do
  let scope ← pushScope parent name vars
  (x scope).thenTick.andThenTidy Machine.popScope

end Pseudocode
