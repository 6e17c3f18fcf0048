import Pseudocode.Fault

/-!
# Tables of names

A table maps names to what they were declared as, in the order of declaration.
No name is declared twice, and looking up a name that was not declared fails.
-/

namespace Pseudocode

/-- A table of names. -/
structure Table (α : Type) where
  kind : NameKind
  entries : List (String × α) := []

namespace Table

variable {α : Type}

/-- The declaration of a name, if there is one. -/
def find? (t : Table α) (name : String) : Option α :=
  t.entries.lookup name

/-- Whether a name is declared. -/
def has (t : Table α) (name : String) : Bool :=
  (t.find? name).isSome

/-- The declared names, in order. -/
def names (t : Table α) : List String :=
  t.entries.map Prod.fst

/-- The number of names. -/
def size (t : Table α) : Nat := t.entries.length

/-- The declaration of a name. -/
def lookup (t : Table α) (name : String) : Except Fault α :=
  match t.find? name with
  | some item => .ok item
  | none => .error (.undeclared t.kind name)

/-- Declares a new name. -/
def declare (t : Table α) (name : String) (item : α) :
    Except Fault (Table α) :=
  if t.has name then .error (.redeclared t.kind name)
  else .ok { t with entries := t.entries ++ [(name, item)] }

/-- Changes the declaration of a name. -/
def modify (t : Table α) (name : String) (change : α → α) : Table α :=
  { t with entries := t.entries.map fun entry =>
      if entry.1 = name then (entry.1, change entry.2) else entry }

/-- The table without names. -/
def clear (t : Table α) : Table α := { t with entries := [] }

end Table

end Pseudocode
