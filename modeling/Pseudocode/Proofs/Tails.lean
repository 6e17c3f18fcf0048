import Pseudocode.Program.Parser

/-!
# How statements end

Four kinds of statement have a part in the middle that may be missing: the initial
value of a declaration, the place in an array that is assigned to, the result of a
`return`, and the last branch of a conditional.  What stands behind that part is read in
one way whether the part is there or not.

Here what stands behind has a name (`declarationTail` and so on), and each reader is one
of two runs: with the part, or without it.  Whatever is shown of a reader is shown of
its tail first, once for both.
-/

namespace Pseudocode.Builder

/-- A declaration, behind the initial value. -/
def declarationTail (type : DeclaredType) (name : String) (initial : Option Expr) :
    Builder (Node Operator) := do
  let _ ← take .semicolon
  set (← (← get).declareVariable name ⟨type, initial.map .deferred⟩)
  return { operator := .declaration type name initial }

/-- A declaration is read the same way behind its initial value and where it has none. -/
theorem declaration_eq (depth : Nat) : declaration depth = (do
    let _ ← take .variableWord
    let _ ← take .minus
    let type ← tokens declaredType
    let name ← take .word
    if ← sees [.assign] then
      let _ ← take .assign
      let initial ← expression depth
      declarationTail type name.text (some initial)
    else declarationTail type name.text none) := rfl

/-- An assignment, behind what is assigned to. -/
def assignmentTail (depth : Nat) (target : Occurrence) (element : Option Expr) :
    Builder (Node Operator) := do
  let _ ← take .assign
  let value ← expression depth
  let _ ← take .semicolon
  return { operator := .assignment target element value }

/-- An assignment is read the same way behind the element it names and where it names
none. -/
theorem assignment_eq (depth : Nat) : assignment depth = (do
    let _ ← take .letWord
    let name ← take .word
    let target ← target name.text
    if ← sees [.leftBracket] then
      let _ ← take .leftBracket
      let element ← expression depth
      let _ ← take .rightBracket
      assignmentTail depth target (some element)
    else assignmentTail depth target none) := rfl

/-- A `return` in a function, behind the result. -/
def giveBackTail (f : FunctionDeclaration) (result : Option Expr) :
    Builder (Node Operator) := do
  let _ ← take .semicolon
  if f.result.isSome && result.isNone then
    refuse (.resultMissing f.fullName)
  else if f.result.isNone && result.isSome then
    refuse (.resultUnexpected f.fullName)
  else return { operator := .giveBack result }

/-- A `return` is read the same way behind its result and where it has none. -/
theorem giveBack_eq (depth : Nat) : giveBack depth = (do
    let t ← take .returnWord
    match (← get).openFunction? with
    | none => refuse (.returnOutside t)
    | some f =>
      if ← sees [.semicolon] then giveBackTail f none
      else
        let result ← expression depth
        giveBackTail f (some result)) := rfl

/-- A conditional, behind its branches. -/
def branchTail (node : Node Operator) (alternatives : List Nat) (fallback : Option Nat) :
    Builder (Node Operator) := do
  closingWord .ifWord
  return { node with links := { node.links with alternatives, fallback } }

/-- A conditional ends the same way behind its last branch and where it has none. -/
theorem branch_eq (statement : Builder (Node Operator)) (depth : Nat) :
    branch statement depth = (do
      let _ ← take .ifWord
      let guard ← expression depth
      let _ ← take .thenWord
      let operator := Operator.branch guard
      let closing := [Token.Kind.elseIfWord, .elseWord, .endWord]
      let node ← body nestLoose statement operator closing { operator }
      let further ← alternatives statement depth closing (← get).ahead
      if ← sees [.elseWord] then
        let _ ← take .elseWord
        let fallback ← furtherBranch statement .elseBranch [.endWord]
        branchTail node further (some fallback)
      else branchTail node further none) := rfl

end Pseudocode.Builder
