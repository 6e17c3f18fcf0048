import Pseudocode.Forest
import Pseudocode.Position

/-!
# Operators hung by hand

On a workbench operators are made first and put into a forest afterwards, in any
order.  An operator can be given a child or a sibling while it is still loose,
and putting in an operator that is already in changes nothing.
-/

namespace Pseudocode

/-- The caption of an operator without content. -/
structure Caption where
  label : String
  name : String
  deriving Repr, DecidableEq, Inhabited

instance : Captioned Caption := ⟨Caption.label, Caption.name⟩

/-- An operator on a workbench, with its place in the forest once it has one. -/
structure Piece where
  caption : Caption
  place : Option Nat := none
  links : Links := {}
  deriving Inhabited

/-- Operators, the numbers of those put into the forest in the order of their
places, and the roots. -/
structure Workbench where
  pieces : Array Piece := #[]
  placed : Array Nat := #[]
  roots : List Nat := []

namespace Workbench

/-- The operator of a number. -/
def piece (w : Workbench) (number : Nat) : Piece :=
  w.pieces.getD number default

/-- The forest as it stands. -/
def forest (w : Workbench) : Forest Caption where
  nodes := w.placed.map fun number =>
    ⟨(w.piece number).caption, (w.piece number).links, (w.piece number).place⟩
  roots := w.roots

/-- Makes a loose operator. -/
def make (w : Workbench) (caption : Caption) : Workbench :=
  { w with pieces := w.pieces.push { caption } }

/-- Puts an operator into the forest, if it is loose; its place. -/
def add (w : Workbench) (number : Nat) : Nat × Workbench :=
  match (w.piece number).place with
  | some place => (place, w)
  | none =>
    let place := w.placed.size
    (place,
      { w with
        pieces := w.pieces.modify number fun p => { p with place := some place }
        placed := w.placed.push number })

/-- Changes the references of an operator. -/
def relink (w : Workbench) (number : Nat) (change : Links → Links) :
    Workbench :=
  { w with pieces := w.pieces.modify number fun p =>
      { p with links := change p.links } }

/-- Puts an operator in and hangs it up: as a root, or below or behind another
operator.  The operator stays in the forest if its place is taken. -/
def insert (w : Workbench) (previous : Option Nat) (number : Nat)
    (asChild : Bool) : Except Fault Unit × Workbench :=
  let (place, w) := w.add number
  match previous with
  | none => (.ok (), { w with roots := w.roots ++ [place] })
  | some previous =>
    let p := w.piece previous
    if asChild then
      if p.links.child.isSome then
        (.error (.configuration (.childTaken p.caption.label)), w)
      else
        (.ok (), w.relink previous fun l => { l with child := some place })
    else if p.links.sibling.isSome then
      (.error (.configuration (.siblingTaken p.caption.label)), w)
    else
      (.ok (), w.relink previous fun l => { l with sibling := some place })

/-- Whether an operator can have further branches. -/
def isConditional (w : Workbench) (number : Nat) : Bool :=
  (w.piece number).caption.label = "If"

/-- Puts an operator in as a further branch of a conditional. -/
def addAlternative (w : Workbench) (number branch : Nat) :
    Except Fault Unit × Workbench :=
  let (place, w) := w.add branch
  if w.isConditional number then
    (.ok (), w.relink number fun l =>
      { l with alternatives := l.alternatives ++ [place] })
  else (.error .missingOperation, w)

/-- Puts an operator in as the last branch of a conditional. -/
def setFallback (w : Workbench) (number branch : Nat) : Workbench :=
  let (place, w) := w.add branch
  if w.isConditional number then
    w.relink number fun l => { l with fallback := some place }
  else w

/-- The captions from a place on, along the siblings.  A negative place counts
from the end. -/
def siblings (w : Workbench) (start : Option Int) :
    Except Fault (List String) := do
  let f := w.forest
  match start with
  | none => return []
  | some n =>
    let index ← position f.size n
    return (f.siblings (some index)).map f.lineAt

/-- The captions of the operators nested in an operator. -/
def children (w : Workbench) (number : Nat) : List String :=
  let f := w.forest
  (f.siblings (w.piece number).links.child).map f.lineAt

end Workbench

end Pseudocode
