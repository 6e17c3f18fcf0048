import Pseudocode.Environment

/-!
# Tables of any kind

One table type for symbols, variables, functions and classes alike, as a
listing shows them.  Only variables have a binding, which can be looked at and
replaced.
-/

namespace Pseudocode

open Text

/-- What a name of a registry stands for. -/
inductive Entry where
  | symbol (item : String)
  | bound (v : Variable)
  | function
  | classEntry

/-- An entry in full. -/
def Entry.shown (name : String) : Entry → String
  | symbol item => item
  | bound v => v.shown name
  | function =>
    "Function(index=None, child=None, sibling=None, name=" ++ quote name
      ++ ", parameters=[], return_type=None, module='')"
  | classEntry =>
    "ClassDeclaration(index=None, child=None, sibling=None, name="
      ++ quote name ++ ")"

/-- A table of entries. -/
abbrev Registry := Table Entry

namespace Registry

/-- The entry of a name in full. -/
def shown (r : Registry) (name : String) : Except Fault String := do
  return (← r.lookup name).shown name

/-- The binding of a name in full. -/
def bindingShown (r : Registry) (name : String) : Except Fault String := do
  match ← r.lookup name with
  | .bound v =>
    match v.binding with
    | none => return "None"
    | some binding => return (binding.expr {}).shown
  | _ => throw .missingOperation

/-- Binds a variable anew; other tables cannot do that. -/
def rebind (r : Registry) (name : String) (binding : Binding) :
    Except Fault Registry := do
  if r.kind = .variableName then
    let _ ← r.lookup name
    return r.modify name fun
      | .bound v => .bound { v with binding := some binding }
      | entry => entry
  else throw .missingOperation

end Registry

end Pseudocode
