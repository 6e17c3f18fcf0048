import Pseudocode.Expr.Parser
import Pseudocode.Program
import Pseudocode.Token.Lexer

/-!
# From tokens to programs

The builder reads one operator at a time.  At the top level a module header
starts a new tree and opens a block; `begin` closes the open block, becomes its
first operator or the sibling of the last one, and opens a block itself; every
other operator becomes the first of the open block or the sibling of the last
operator.  An `end` at the top level ends the program, whatever follows.

Bodies of loops, conditionals and functions are read up to a closing word, each
operator the sibling of the one before.  Declarations are entered into their
tables as they are read, so a name can only be used behind its declaration.
-/

namespace Pseudocode

open Numeral

/-- A program that is being built: what is built so far, the tokens ahead, the
numbers of the module and the function that are open, and where the next
operator of the top level is hung. -/
structure Draft where
  program : Program := {}
  ahead : List Token
  module : Option Nat := none
  function : Option Nat := none
  block : Option Nat := none
  last : Option Nat := none

/-- What builds a program. -/
abbrev Builder := StateT Draft (Except Fault)

namespace Draft

/-- The module that is open. -/
def openModule? (d : Draft) : Option ModuleDeclaration :=
  d.module.bind fun number => d.program.modules[number]?

/-- The function that is open. -/
def openFunction? (d : Draft) : Option FunctionDeclaration :=
  d.function.bind fun number => d.program.functions[number]?

/-- The variable of a name: in the open function, or else in the module. -/
def resolve (d : Draft) (name : String) : Option Occurrence :=
  d.module.bind fun module =>
    let found home := some ⟨name, some ⟨module, d.function, home⟩⟩
    if d.openFunction?.any fun f => f.vars.has name then found .call
    else if d.openModule?.any fun m => m.vars.has name then found .module
    else none

/-- The names that expressions can use at this point. -/
def names (d : Draft) : Names where
  resolve := d.resolve
  function name :=
    match d.module with
    | none => .error (.undeclared .functionName name)
    | some module => d.program.findFunction module name
  method owner name :=
    match d.module with
    | none => .error (.undeclared .className owner)
    | some module => d.program.findMethod module owner name

/-- Changes a module. -/
def setModule (d : Draft) (number : Nat) (m : ModuleDeclaration) : Draft :=
  { d with program :=
      { d.program with modules := d.program.modules.setIfInBounds number m } }

/-- Changes a function. -/
def setFunction (d : Draft) (number : Nat) (f : FunctionDeclaration) : Draft :=
  { d with program :=
      { d.program with
        functions := d.program.functions.setIfInBounds number f } }

/-- Completes the open function by its body. -/
def closeFunction (d : Draft) (number : Nat) (body : Option Nat) : Draft :=
  match d.program.functions[number]? with
  | none => { d with function := none }
  | some f => { d.setFunction number { f with body } with function := none }

/-- Changes a class. -/
def setClass (d : Draft) (number : Nat) (c : ClassDeclaration) : Draft :=
  { d with program :=
      { d.program with classes := d.program.classes.setIfInBounds number c } }

/-- Enters a variable into the table of the open function, or else of the open
module. -/
def declareVariable (d : Draft) (name : String) (v : Variable) :
    Except Fault Draft := do
  match d.function with
  | some number =>
    match d.program.functions[number]? with
    | none => throw .missingPosition
    | some f =>
      return d.setFunction number
        { f with vars := ← f.vars.declare name v }
  | none =>
    match d.module, d.openModule? with
    | some number, some m =>
      return d.setModule number
        { m with vars := ← m.vars.declare name v }
    | _, _ => throw .missingPosition

end Draft

namespace Builder

/-- Reads tokens. -/
def tokens (reader : Reader α) : Builder α := fun d => do
  let (a, ahead) ← reader d.ahead
  return (a, { d with ahead })

/-- Takes a token of a kind. -/
def take (kind : Token.Kind) : Builder Token := tokens (Reader.take [kind])

/-- Whether the first token ahead is of one of some kinds. -/
def sees (kinds : List Token.Kind) : Builder Bool := tokens (Reader.sees kinds)

/-- Fails for a reason found in the tokens. -/
def refuse (fault : ParseFault) : Builder α := throw (.parse fault)

/-- Reads an expression, nested at most so deep. -/
def expression (depth : Nat) : Builder Expr := do
  let names := (← get).names
  tokens (Expr.expression names depth)

/-- Puts a node into the forest. -/
def place (node : Node Operator) : Builder Nat := do
  let d ← get
  let (index, forest) := d.program.forest.add node
  set { d with program := { d.program with forest } }
  return index

/-- Puts a node into the forest and hangs it up. -/
def insert (previous : Option Nat) (node : Node Operator) (asChild : Bool) :
    Builder Nat := do
  let d ← get
  let (index, forest) ← d.program.forest.insert previous node asChild
  set { d with program := { d.program with forest } }
  return index

/-- Makes a place the first nested operator of an operator that is in the forest, given by
its own place. -/
def nestPlaced (owner index : Nat) : Builder Nat := do
  let d ← get
  let forest ← d.program.forest.adopt owner index
  set { d with program := { d.program with forest } }
  return owner

/-- Makes a place the first nested operator of an operator that is still loose. -/
def nestLoose (owner : Node Operator) (index : Nat) : Builder (Node Operator) :=
  liftM (owner.adopt index)

/-- The variable of a name; it fails if there is none. -/
def target (name : String) : Builder Occurrence := do
  match (← get).resolve name with
  | none => throw (.undeclared .variableName name)
  | some target => return target

/-- Puts the next operator of a row in, behind the one before it, `previous`.  The first
one is nested in the owner of the row by `nest`.  The result is the owner, and the place
of the operator. -/
def attach (nest : π → Nat → Builder π) (owner : π) (previous : Option Nat)
    (node : Node Operator) : Builder (π × Nat) :=
  match previous with
  | none => do
    let index ← place node
    return (← nest owner index, index)
  | some previous => do
    let index ← insert (some previous) node false
    return (owner, index)

/-- The operators of a body up to one of the closing words, nested in its owner: the
owner as it is then.  There are fewer operators than tokens in the list given. -/
def bodyRest (nest : π → Nat → Builder π) (statement : Builder (Node Operator))
    (line : String) (closing : List Token.Kind) :
    List Token → π → Option Nat → Builder π
  | [], owner, _ => return owner
  | _ :: bound, owner, previous => do
    if ← sees closing then return owner
    else if Token.atEnd (← get).ahead then
      refuse (.unterminated line closing)
    else
      let node ← statement
      let (owner, index) ← attach nest owner previous node
      bodyRest nest statement line closing bound owner (some index)

/-- The body of an operator up to one of the closing words: its owner, with the body. -/
def body (nest : π → Nat → Builder π) (statement : Builder (Node Operator))
    (operator : Operator) (closing : List Token.Kind) (owner : π) : Builder π := do
  let bound := Token.ending :: (← get).ahead
  bodyRest nest statement (Captioned.line operator) closing bound owner none

/-- The end of a loop or a conditional. -/
def closingWord (kind : Token.Kind) : Builder Unit := do
  let _ ← take .endWord
  let _ ← take kind
  let _ ← take .dot

/-- The end of a function or a class, which repeats its name. -/
def closingName (name : String) : Builder Unit := do
  let _ ← take .endWord
  let closing := (← take .word).text
  if closing ≠ name then refuse (.mismatchedEnd name closing)
  let _ ← take .dot

/-- A type: a word, and a length in brackets for an array. -/
def declaredType : Reader DeclaredType := do
  let kind := ScalarKind.ofWord (← Reader.take [.word]).text
  if ← Reader.sees [.leftBracket] then
    let _ ← Reader.take [.leftBracket]
    let size := (← Reader.take [.number]).text
    let _ ← Reader.take [.rightBracket]
    if hasPoint size then Reader.refuse (.fractionalLength size)
    else
      match readInteger size with
      | .error fault => throw (.numeral fault)
      | .ok length =>
        if length ≤ 0 then throw (.configuration (.arrayLength length))
        else return ⟨kind, some length⟩
  else return ⟨kind, none⟩

/-- A variable declaration. -/
def declaration (depth : Nat) : Builder (Node Operator) := do
  let _ ← take .variableWord
  let _ ← take .minus
  let type ← tokens declaredType
  let name := (← take .word).text
  let initial ← do
    if ← sees [.assign] then
      let _ ← take .assign
      pure (some (← expression depth))
    else pure none
  let _ ← take .semicolon
  set (← (← get).declareVariable name ⟨type, initial.map .deferred⟩)
  return { operator := .declaration type name initial }

/-- An assignment. -/
def assignment (depth : Nat) : Builder (Node Operator) := do
  let _ ← take .letWord
  let target ← target (← take .word).text
  let element ← do
    if ← sees [.leftBracket] then
      let _ ← take .leftBracket
      let e ← expression depth
      let _ ← take .rightBracket
      pure (some e)
    else pure none
  let _ ← take .assign
  let value ← expression depth
  let _ ← take .semicolon
  return { operator := .assignment target element value }

/-- A read from the input. -/
def input : Builder (Node Operator) := do
  let _ ← take .inputWord
  let target ← target (← take .word).text
  let _ ← take .semicolon
  return { operator := .input target }

/-- A write to the output. -/
def output (depth : Nat) : Builder (Node Operator) := do
  let _ ← take .outputWord
  let e ← expression depth
  let _ ← take .semicolon
  return { operator := .output e }

/-- A call as a statement: an operand that turns out to be a call. -/
def call (depth : Nat) : Builder (Node Operator) := do
  let _ ← take .callWord
  let d ← get
  let t := Token.first d.ahead
  match ← tokens (Expr.primary d.names (Expr.expression d.names depth)) with
  | .call name callee arguments =>
    let _ ← take .semicolon
    return { operator := .call name callee arguments }
  | _ => refuse (.callExpected t)

/-- The end of a function.  It has a result exactly if the function has one. -/
def giveBack (depth : Nat) : Builder (Node Operator) := do
  let t ← take .returnWord
  match (← get).openFunction? with
  | none => refuse (.returnOutside t)
  | some f =>
    let result ← do
      if ← sees [.semicolon] then pure none
      else pure (some (← expression depth))
    let _ ← take .semicolon
    if f.result.isSome && result.isNone then
      refuse (.resultMissing f.fullName)
    else if f.result.isNone && result.isSome then
      refuse (.resultUnexpected f.fullName)
    else return { operator := .giveBack result }

/-- A loop. -/
def loop (statement : Builder (Node Operator)) (depth : Nat) :
    Builder (Node Operator) := do
  let _ ← take .whileWord
  let guard ← expression depth
  let _ ← take .thenWord
  let operator := Operator.loop guard
  let node ← body nestLoose statement operator [.endWord] { operator }
  closingWord .whileWord
  return node

/-- A further branch of a conditional: its place.  It goes into the forest before
its body. -/
def furtherBranch (statement : Builder (Node Operator)) (operator : Operator)
    (closing : List Token.Kind) : Builder Nat := do
  let index ← place { operator }
  body nestPlaced statement operator closing index

/-- The further branches of a conditional, at most one for each token of the
list given. -/
def alternatives (statement : Builder (Node Operator)) (depth : Nat)
    (closing : List Token.Kind) : List Token → Builder (List Nat)
  | [] => return []
  | _ :: bound => do
    if ← sees [.elseIfWord] then
      let _ ← take .elseIfWord
      let operator := Operator.elseIf (← expression depth)
      let _ ← take .thenWord
      let index ← furtherBranch statement operator closing
      return index :: (← alternatives statement depth closing bound)
    else return []

/-- A conditional. -/
def branch (statement : Builder (Node Operator)) (depth : Nat) :
    Builder (Node Operator) := do
  let _ ← take .ifWord
  let operator := Operator.branch (← expression depth)
  let _ ← take .thenWord
  let closing := [Token.Kind.elseIfWord, .elseWord, .endWord]
  let node ← body nestLoose statement operator closing { operator }
  let alternatives ← alternatives statement depth closing (← get).ahead
  let fallback ← do
    if ← sees [.elseWord] then
      let _ ← take .elseWord
      pure (some (← furtherBranch statement .elseBranch [.endWord]))
    else pure none
  closingWord .ifWord
  return { node with links := { node.links with alternatives, fallback } }

/-- A statement, nested at most so deep; it is not yet in the forest. -/
def statement : Nat → Builder (Node Operator)
  | 0 => throw .tooDeep
  | depth + 1 => do
    let t := Token.first (← get).ahead
    match t.kind with
    | .whileWord => loop (statement depth) depth
    | .ifWord => branch (statement depth) depth
    | .variableWord => declaration depth
    | .letWord => assignment depth
    | .inputWord => input
    | .outputWord => output depth
    | .callWord => call depth
    | .returnWord => giveBack depth
    | _ => refuse (.statementExpected t)

/-- A parameter of a function. -/
def parameter : Reader Parameter := do
  let type ← declaredType
  let name := (← Reader.take [.word]).text
  return ⟨type, name⟩

/-- The table that a function goes into: a module's, or that of a class. -/
inductive Owner where
  | module (number : Nat)
  | classOf (number : Nat)

/-- Enters a function under the next free number. -/
def declareFunction (owner : Owner) (f : FunctionDeclaration) :
    Builder Nat := do
  let d ← get
  let number := d.program.functions.size
  match owner with
  | .module module =>
    match d.program.modules[module]? with
    | none => throw .missingPosition
    | some m =>
      let functions ← m.functions.declare f.name number
      set (d.setModule module { m with functions })
  | .classOf ofClass =>
    match d.program.classes[ofClass]? with
    | none => throw .missingPosition
    | some c =>
      let methods ← c.methods.declare f.name number
      set (d.setClass ofClass { c with methods })
  modify fun d =>
    { d with program :=
        { d.program with functions := d.program.functions.push f } }
  return number

/-- Declares parameters as variables of the open function. -/
def declareParameters : List Parameter → Builder Unit
  | [] => return
  | p :: rest => do
    set (← (← get).declareVariable p.name ⟨p.type, none⟩)
    declareParameters rest

/-- A function or method behind its header.  It is declared before its body is
read, so that the body can call it. -/
def functionRest (owner : Owner) (f : FunctionDeclaration) :
    Builder (Node Operator) := do
  let number ← declareFunction owner f
  modify fun d => { d with function := some number }
  declareParameters f.parameters
  let operator := f.operator number
  let node ← body nestLoose (statement nestingLimit) operator [.endWord] { operator }
  modify fun d => d.closeFunction number node.links.child
  closingName f.name
  return node

/-- A function or method behind its leading word. -/
def function (owner : Owner) (className : Option String) (moduleName : String) :
    Builder (Node Operator) := do
  let name := (← take .word).text
  let parameters ← tokens (Expr.parenthesised parameter)
  let result ← do
    if ← sees [.colon] then
      let _ ← take .colon
      pure (some (← tokens declaredType))
    else pure none
  functionRest owner
    { name, owner := className, parameters, result, module := moduleName }

/-- The methods of a class, at most one for each token of the list given, nested in the
class: the class as it is then. -/
def methods (nest : π → Nat → Builder π) (number : Nat) (className moduleName : String) :
    List Token → π → Option Nat → Builder π
  | [], owner, _ => return owner
  | _ :: bound, owner, previous => do
    if ← sees [.methodWord] then
      let _ ← take .methodWord
      let node ← function (.classOf number) (some className) moduleName
      let (owner, index) ← attach nest owner previous node
      methods nest number className moduleName bound owner (some index)
    else return owner

/-- A class with its methods. -/
def classDeclaration (module : Nat) (m : ModuleDeclaration) :
    Builder (Node Operator) := do
  let _ ← take .classWord
  let name := (← take .word).text
  let d ← get
  let number := d.program.classes.size
  let classes ← m.classes.declare name number
  let d := d.setModule module { m with classes }
  set { d with program :=
      { d.program with classes := d.program.classes.push { name } } }
  let owner : Node Operator := { operator := .classDeclaration name number }
  let node ← methods nestLoose number name m.name (← get).ahead owner none
  closingName name
  return node

/-- A module header; the module is open from here on. -/
def moduleHeader : Builder (Node Operator) := do
  let _ ← take .moduleWord
  let name := (← take .word).text
  let _ ← take .semicolon
  let d ← get
  let number := d.program.modules.size
  set { d with
    program := { d.program with modules := d.program.modules.push { name } }
    module := some number }
  return { operator := .module name number }

/-- An operator of the top level; it is not yet in the forest. -/
def item : Builder (Node Operator) := do
  let d ← get
  let t := Token.first d.ahead
  if t.kind = .moduleWord then moduleHeader
  else
    match d.module, d.openModule? with
    | some module, some m =>
      match t.kind with
      | .beginWord =>
        let _ ← take .beginWord
        return { operator := .beginning }
      | .functionWord =>
        let _ ← take .functionWord
        function (.module module) none m.name
      | .classWord => classDeclaration module m
      | _ => statement nestingLimit
    | _, _ => refuse (.moduleExpected t)

/-- Hangs an operator of the top level into the forest. -/
def hang (node : Node Operator) : Builder Unit := do
  let d ← get
  match node.operator with
  | .module .. =>
    let index ← insert none node false
    modify fun d => { d with block := some index, last := some index }
  | operator =>
    match d.block with
    | none => throw .missingPosition
    | some block =>
      let asChild := (d.program.forest.links block).child.isNone
      let index ← insert d.last node asChild
      let block :=
        match operator with
        | .beginning => some index
        | _ => some block
      modify fun d => { d with block, last := some index }

/-- The operators of the top level, at most one for each token of the list
given. -/
def items : List Token → Builder Unit
  | [] => return
  | _ :: bound => do
    if Token.atEnd (← get).ahead then return
    else if ← sees [.endWord] then
      let _ ← take .endWord
    else
      hang (← item)
      items bound

end Builder

namespace Program

/-- The draft that is left when a program has been built from tokens. -/
def draft (tokens : List Token) : Except Fault Draft := do
  let (_, d) ← (Builder.items tokens).run { ahead := tokens }
  return d

/-- The program that tokens are. -/
def ofTokens (tokens : List Token) : Except Fault Program :=
  (draft tokens).map Draft.program

/-- The program that a text is. -/
def ofText (source : String) : Except Fault Program := do
  ofTokens (← Token.ofText source)

end Program

end Pseudocode
