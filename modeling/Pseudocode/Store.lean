import Pseudocode.Expr

/-!
# The arrays of a running program

The array that a variable holds has an identity: writing one of its slots shows
wherever that array is still in use.  So an array lives in a cell of the store
and is passed on by the cell's address.  What expressions compute with are
*operands*: plain values, and addresses of cells.
-/

namespace Pseudocode

/-- A value at run time: a plain value, or the array in a cell. -/
inductive Operand where
  | value (v : Value)
  | cell (address : Nat)
  deriving Inhabited

/-- The arrays of a running program, each in its cell. -/
structure Store where
  cells : Array (List (Option Value)) := #[]
  deriving Inhabited

namespace Store

/-- The slots in a cell. -/
def slots (s : Store) (address : Nat) : List (Option Value) :=
  s.cells.getD address []

/-- The value that an operand stands for at this moment. -/
def reveal (s : Store) : Operand → Value
  | .value v => v
  | .cell address => .array (s.slots address)

/-- Puts slots into a new cell. -/
def allocate (s : Store) (slots : List (Option Value)) : Nat × Store :=
  (s.cells.size, ⟨s.cells.push slots⟩)

/-- Replaces the slots in a cell. -/
def write (s : Store) (address : Nat) (slots : List (Option Value)) : Store :=
  ⟨s.cells.setIfInBounds address slots⟩

/-- The operand for a value that is about to be held by a variable: an array
gets a cell of its own. -/
def keep (s : Store) (v : Value) : Operand × Store :=
  match v with
  | .array slots =>
    let (address, s) := s.allocate slots
    (.cell address, s)
  | v => (.value v, s)

end Store

end Pseudocode
