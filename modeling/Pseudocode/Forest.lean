import Pseudocode.Fault

/-!
# Operators linked into trees

The operators of a program stand in one array and refer to each other by their
place in it.  A node names its first nested operator (`child`) and the next
operator of its own level (`sibling`); a conditional also names its further
branches.  The places where trees begin are the roots.

A node is made *loose*; it is told its place when it is put into the array, and
putting it in once more does nothing.  `Forest.insert` is how a node comes in: as
a root, as the child of the node before it, or as its sibling.  A node that is
still loose can have a child as well (`Node.adopt`), for an operator is put in only
when all of it has been read.
-/

namespace Pseudocode

/-- What a forest needs to know of its operators: the word for their class and
their name, which may be empty. -/
class Captioned (α : Type) where
  label : α → String
  name : α → String

/-- An operator in one line. -/
def Captioned.line {α : Type} [Captioned α] (a : α) : String :=
  let name := Captioned.name a
  if name = "" then Captioned.label a else Captioned.label a ++ " " ++ name

/-- The references of a node. -/
structure Links where
  child : Option Nat := none
  sibling : Option Nat := none
  alternatives : List Nat := []
  fallback : Option Nat := none
  deriving Repr, DecidableEq, Inhabited

/-- An operator with its references, and its place once it has one. -/
structure Node (α : Type) where
  operator : α
  links : Links := {}
  index : Option Nat := none

/-- A node that has been told its place. -/
def Node.at {α : Type} (node : Node α) (index : Nat) : Node α :=
  { node with index := some index }

/-- Makes a place the first nested operator of a node; it must not have one yet. -/
def Node.adopt {α : Type} [Captioned α] (node : Node α) (index : Nat) :
    Except Fault (Node α) :=
  if node.links.child.isSome then
    .error (.configuration (.childTaken (Captioned.label node.operator)))
  else .ok { node with links := { node.links with child := some index } }

/-- Makes a place the operator that follows a node; there must not be one yet. -/
def Node.follow {α : Type} [Captioned α] (node : Node α) (index : Nat) :
    Except Fault (Node α) :=
  if node.links.sibling.isSome then
    .error (.configuration (.siblingTaken (Captioned.label node.operator)))
  else .ok { node with links := { node.links with sibling := some index } }

/-- Operators linked into trees. -/
structure Forest (α : Type) where
  nodes : Array (Node α) := #[]
  roots : List Nat := []

namespace Forest

variable {α : Type}

/-- The number of nodes. -/
def size (f : Forest α) : Nat := f.nodes.size

/-- The references of the node at a place; there are none outside. -/
def links (f : Forest α) (index : Nat) : Links :=
  (f.nodes[index]?.map Node.links).getD {}

/-- Puts a loose node behind all others; a node with a place has it already. -/
def add (f : Forest α) (node : Node α) : Nat × Forest α :=
  match node.index with
  | some index => (index, f)
  | none => (f.size, { f with nodes := f.nodes.push (node.at f.size) })

/-- Puts a changed node in its place. -/
def set (f : Forest α) (index : Nat) (node : Node α) : Forest α :=
  { f with nodes := f.nodes.setIfInBounds index node }

/-- Makes one node the first nested operator of another. -/
def adopt [Captioned α] (f : Forest α) (parent index : Nat) :
    Except Fault (Forest α) :=
  match f.nodes[parent]? with
  | none => .error .missingPosition
  | some node => (node.adopt index).map (f.set parent)

/-- Makes one node the operator that follows another. -/
def follow [Captioned α] (f : Forest α) (previous index : Nat) :
    Except Fault (Forest α) :=
  match f.nodes[previous]? with
  | none => .error .missingPosition
  | some node => (node.follow index).map (f.set previous)

/-- Puts a node in: as a root, or below or behind the node before it. -/
def insert [Captioned α] (f : Forest α) (previous : Option Nat)
    (node : Node α) (asChild : Bool) : Except Fault (Nat × Forest α) := do
  let (index, f) := f.add node
  match previous with
  | none => return (index, { f with roots := f.roots ++ [index] })
  | some previous =>
    let f ← if asChild then f.adopt previous index else f.follow previous index
    return (index, f)

/-- At most `limit` places from a place on, along the siblings. -/
def siblingsWithin (f : Forest α) : Nat → Option Nat → List Nat
  | _, none => []
  | 0, some _ => []
  | limit + 1, some index =>
    index :: f.siblingsWithin limit (f.links index).sibling

/-- A place and those of all siblings behind it. -/
def siblings (f : Forest α) (start : Option Nat) : List Nat :=
  f.siblingsWithin f.size start

/-- The places of the operators nested in a node, one level down. -/
def children (f : Forest α) (index : Nat) : List Nat :=
  f.siblings (f.links index).child

/-- The operator at a place in one line. -/
def lineAt [Captioned α] (f : Forest α) (index : Nat) : String :=
  (f.nodes[index]?.map fun node => Captioned.line node.operator).getD ""

/-- How deeply an outline may be nested. -/
def outlineLimit : Nat := 1000

/-- The outline of the tree at a place, `depth` levels below its root: a line
for the node, its nested operators one level further in, and the further
branches of a conditional at its own level. -/
def outlineFrom [Captioned α] (f : Forest α) :
    Nat → Nat → Nat → Except Fault (List String)
  | 0, _, _ => .error .tooDeep
  | limit + 1, depth, index => do
    let links := f.links index
    let nested ← (f.children index).mapM (f.outlineFrom limit (depth + 1))
    let branches ←
      (links.alternatives ++ links.fallback.toList).mapM
        (f.outlineFrom limit depth)
    let indent := String.ofList (List.replicate (2 * depth) ' ')
    return (indent ++ f.lineAt index) :: (nested ++ branches).flatten

/-- The outline of all trees. -/
def outline [Captioned α] (f : Forest α) : Except Fault (List String) := do
  let trees ← f.roots.mapM (f.outlineFrom outlineLimit 0)
  return trees.flatten

end Forest

end Pseudocode
