import Pseudocode.Environment
import Pseudocode.Forest

/-!
# Programs

A program is a forest of operators, one tree for each module, together with what
its modules, functions and classes declare.  The operator of a declaration
carries the declaration's number.
-/

namespace Pseudocode

/-- The operators of a program. -/
inductive Operator where
  /-- A module, with its number. -/
  | module (name : String) (number : Nat)
  /-- The mark before the main statements of a module. -/
  | beginning
  /-- A conditional; its first branch is nested in it. -/
  | branch (guard : Expr)
  /-- A further branch of a conditional. -/
  | elseIf (guard : Expr)
  /-- The last branch of a conditional. -/
  | elseBranch
  /-- A loop. -/
  | loop (guard : Expr)
  /-- A variable declaration. -/
  | declaration (type : DeclaredType) (name : String) (initial : Option Expr)
  /-- An assignment to a variable, or to one of its slots. -/
  | assignment (target : Occurrence) (element : Option Expr) (value : Expr)
  /-- A read from the input. -/
  | input (target : Occurrence)
  /-- A write to the output. -/
  | output (value : Expr)
  /-- A call as a statement. -/
  | call (name : String) (callee : Callee) (arguments : List Expr)
  /-- The end of a function, with its result. -/
  | giveBack (result : Option Expr)
  /-- A function, with its number. -/
  | function (name : String) (number : Nat)
  /-- A method, with its number as a function. -/
  | method (name : String) (number : Nat)
  /-- A class, with its number. -/
  | classDeclaration (name : String) (number : Nat)
  deriving Inhabited

namespace Operator

/-- The word for the class of an operator. -/
def label : Operator → String
  | module .. => "Module"
  | beginning => "Beginning"
  | branch _ => "If"
  | elseIf _ => "ElseIf"
  | elseBranch => "Else"
  | loop _ => "While"
  | declaration .. => "VariableDeclaration"
  | assignment .. => "Let"
  | input _ => "Input"
  | output _ => "Output"
  | call .. => "Call"
  | giveBack _ => "Return"
  | function .. => "Function"
  | method .. => "MethodFunction"
  | classDeclaration .. => "ClassDeclaration"

/-- The name that an operator carries, or no text. -/
def name : Operator → String
  | module name _ | declaration _ name _ | function name _ | method name _
  | classDeclaration name _ => name
  | assignment target _ _ | input target => target.name
  | _ => ""

instance : Captioned Operator := ⟨label, name⟩

end Operator

/-- A parameter of a function. -/
structure Parameter where
  type : DeclaredType
  name : String
  deriving Repr, DecidableEq, Inhabited

/-- A declared function or method.  Its variables are the names used while its
body was built; `body` is the first statement. -/
structure FunctionDeclaration where
  name : String
  owner : Option String
  parameters : List Parameter
  result : Option DeclaredType
  module : String
  vars : Variables := Variables.empty
  body : Option Nat := none

/-- The name of a function, a method's with that of its class. -/
def FunctionDeclaration.fullName (f : FunctionDeclaration) : String :=
  match f.owner with
  | none => f.name
  | some owner => owner ++ "." ++ f.name

/-- The statement that declares a function under its number. -/
def FunctionDeclaration.operator (f : FunctionDeclaration) (number : Nat) : Operator :=
  match f.owner with
  | none => .function f.name number
  | some _ => .method f.name number

/-- A function of which nothing but the name is known. -/
def FunctionDeclaration.bare (name : String) : FunctionDeclaration :=
  { name, owner := none, parameters := [], result := none, module := "" }

/-- A declared class: its methods, by their numbers as functions. -/
structure ClassDeclaration where
  name : String
  methods : Table Nat := ⟨.functionName, []⟩

/-- A declared module: its variables, and its functions and classes by their
numbers. -/
structure ModuleDeclaration where
  name : String
  vars : Variables := Variables.empty
  functions : Table Nat := ⟨.functionName, []⟩
  classes : Table Nat := ⟨.className, []⟩

/-- A program. -/
structure Program where
  forest : Forest Operator := {}
  modules : Array ModuleDeclaration := #[]
  functions : Array FunctionDeclaration := #[]
  classes : Array ClassDeclaration := #[]

namespace Program

/-- The function that a call refers to. -/
def function (p : Program) : Callee → FunctionDeclaration
  | .declared number => p.functions.getD number (.bare "")
  | .bare name => .bare name

/-- The number of a module's function, found by its name. -/
def findFunction (p : Program) (module : Nat) (name : String) :
    Except Fault Callee :=
  match p.modules[module]? with
  | none => .error (.undeclared .functionName name)
  | some m => (m.functions.lookup name).map .declared

/-- The number of a class's method, found by the two names. -/
def findMethod (p : Program) (module : Nat) (owner name : String) :
    Except Fault Callee := do
  match p.modules[module]? with
  | none => throw (.undeclared .className owner)
  | some m =>
    let number ← m.classes.lookup owner
    match p.classes[number]? with
    | none => throw (.undeclared .className owner)
    | some c => return .declared (← c.methods.lookup name)

end Program

end Pseudocode
