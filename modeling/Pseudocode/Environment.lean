import Pseudocode.Store
import Pseudocode.Table
import Pseudocode.Expr.Printer

/-!
# Scopes

A scope holds variables and lies in further scopes.  A name is looked for from
the inside outwards; declarations always go into the scope itself, and rebinding
changes the variable where it was found.

All scopes of a program are kept in one environment and are known by their
number.  A scope records the scopes around it, the nearest first, so a search is
a search through a list.
-/

namespace Pseudocode

open Text

/-- What a variable is bound to: an operand, or an expression that is evaluated
anew on every read. -/
inductive Binding where
  | held (operand : Operand)
  | deferred (expr : Expr)
  deriving Inhabited

/-- The expression that a binding stands for at this moment. -/
def Binding.expr (s : Store) : Binding → Expr
  | held operand => .literal (s.reveal operand)
  | deferred e => e

/-- A declared variable.  Its type never changes. -/
structure Variable where
  type : DeclaredType
  binding : Option Binding := none
  deriving Inhabited

/-- A variable in full. -/
def Variable.shown (name : String) (v : Variable) : String :=
  "<variable " ++ name ++ ": " ++ v.type.text ++ ">"

/-- A table of variables. -/
abbrev Variables := Table Variable

/-- The table without variables. -/
def Variables.empty : Variables := ⟨.variableName, []⟩

/-- Binds a variable of a table anew. -/
def Variables.rebind (t : Variables) (name : String) (binding : Binding) :
    Variables :=
  t.modify name fun v => { v with binding := some binding }

/-- A scope: its variables and the numbers of the scopes around it, the nearest
first. -/
structure Scope where
  name : String
  outer : List Nat
  vars : Variables

/-- The scope without a name, variables or surroundings. -/
def Scope.empty : Scope := ⟨"", [], Variables.empty⟩

/-- How many scopes lie around a scope. -/
def Scope.depth (s : Scope) : Nat := s.outer.length

/-- A scope in full, its names in order of code points. -/
def Scope.shown (s : Scope) : String :=
  let names := s.vars.names.mergeSort fun a b => !(b < a)
  "<scope " ++ s.name ++ " depth=" ++ toString s.depth ++ " names=["
    ++ ", ".intercalate (names.map quote) ++ "]>"

/-- All scopes, by their numbers. -/
structure Environment where
  scopes : Array Scope := #[]

namespace Environment

/-- The scope of a number. -/
def scope (env : Environment) (id : Nat) : Scope :=
  env.scopes.getD id Scope.empty

/-- Opens a new scope, inside another one if given. -/
def enter (env : Environment) (parent : Option Nat) (name : String)
    (vars : Variables) : Nat × Environment :=
  let outer :=
    match parent with
    | none => []
    | some id => id :: (env.scope id).outer
  (env.scopes.size, ⟨env.scopes.push ⟨name, outer, vars⟩⟩)

/-- A scope and those around it, from the inside outwards. -/
def path (env : Environment) (id : Nat) : List Nat :=
  id :: (env.scope id).outer

/-- The nearest scope that holds a name. -/
def owner? (env : Environment) (id : Nat) (name : String) : Option Nat :=
  (env.path id).find? fun scope => (env.scope scope).vars.has name

/-- The variable that a name means in a scope, if any. -/
def find? (env : Environment) (id : Nat) (name : String) : Option Variable :=
  (env.owner? id name).bind fun scope =>
    (env.scope scope).vars.find? name

/-- The variable that a name means in a scope; it fails if there is none. -/
def lookup (env : Environment) (id : Nat) (name : String) :
    Except Fault Variable :=
  match env.find? id name with
  | some v => .ok v
  | none => .error (.undeclared .variableName name)

/-- Changes the variables of one scope. -/
def modifyVariables (env : Environment) (id : Nat)
    (change : Variables → Variables) : Environment :=
  ⟨env.scopes.modify id fun s => { s with vars := change s.vars }⟩

/-- Declares a variable in a scope itself. -/
def declare (env : Environment) (id : Nat) (name : String) (v : Variable) :
    Except Fault Environment := do
  let vars ← (env.scope id).vars.declare name v
  return env.modifyVariables id fun _ => vars

/-- Binds the variable that a name means in a scope anew. -/
def rebind (env : Environment) (id : Nat) (name : String)
    (binding : Binding) : Except Fault Environment :=
  match env.owner? id name with
  | some scope =>
    .ok (env.modifyVariables scope fun t => t.rebind name binding)
  | none => .error (.undeclared .variableName name)

/-- Forgets the variables of one scope. -/
def clear (env : Environment) (id : Nat) : Environment :=
  env.modifyVariables id Table.clear

end Environment

end Pseudocode
