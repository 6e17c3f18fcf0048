/-!
# Declared types

A declaration names a scalar kind and may add a fixed number of slots, which
makes it an array of that kind.
-/

namespace Pseudocode

/-- The scalar kinds. -/
inductive ScalarKind where
  | integer | real | boolean | string
  deriving Repr, DecidableEq, Inhabited

namespace ScalarKind

/-- The name of a scalar kind. -/
def name : ScalarKind → String
  | integer => "integer"
  | real => "real"
  | boolean => "boolean"
  | string => "string"

/-- The kind that a declaration's type word stands for: text, unless the word
is one of the other three kinds. -/
def ofWord (word : String) : ScalarKind :=
  if word = "integer" then integer
  else if word = "real" then real
  else if word = "boolean" then boolean
  else string

end ScalarKind

/-- A scalar kind, or an array of `length` slots of that kind. -/
structure DeclaredType where
  kind : ScalarKind
  length : Option Int := none
  deriving Repr, DecidableEq, Inhabited

namespace DeclaredType

/-- Whether the type is an array. -/
def isArray (t : DeclaredType) : Bool := t.length.isSome

/-- The type of one slot. -/
def element (t : DeclaredType) : DeclaredType := ⟨t.kind, none⟩

/-- A type as it is written. -/
def text (t : DeclaredType) : String :=
  match t.length with
  | none => t.kind.name
  | some n => t.kind.name ++ "[" ++ toString n ++ "]"

end DeclaredType

/-- The kinds of values at run time, among them the kind of a value that is
nothing but a value. -/
inductive ValueKind where
  | scalar (kind : ScalarKind)
  | array
  | bare
  deriving Repr, DecidableEq, Inhabited

/-- The name of a kind of values. -/
def ValueKind.name : ValueKind → String
  | scalar kind => kind.name
  | array => "array"
  | bare => "value"

end Pseudocode
