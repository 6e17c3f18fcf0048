import Pseudocode.Program.Parser

/-!
# How the code of a program is laid out

The operators of a program lie in one array, whichever function they belong to.
A *chart* says what the array does not: a label for each operator tells whose
code it is part of, whether it is nested in a loop or a conditional, and which
names have been declared before it for certain; a note for each function tells
its module and which of the module's names were declared for certain before it.

`Layout` says that a chart agrees with a program.  This is a matter of single
operators: the label of an operator agrees with those of the operators that it
links to, the names and functions that it uses are those that its label allows,
and a declaration is in the table of its code.  So it is enough to look at one
operator at a time, both when a program is built and when it is run.
-/

namespace Pseudocode

/-- The code of a function, or that of a module outside of its functions. -/
structure Code where
  module : Nat
  function : Option Nat
  deriving Repr, DecidableEq

/-- The code of a module around a piece of code. -/
def Code.outside (code : Code) : Code := ⟨code.module, none⟩

/-- The variables that a piece of code declares. -/
def Program.table (p : Program) (code : Code) : Variables :=
  match code.function with
  | some n => ((p.functions[n]?).map FunctionDeclaration.vars).getD Variables.empty
  | none =>
    ((p.modules[code.module]?).map ModuleDeclaration.vars).getD Variables.empty

/-- Whether code declares a variable with a type. -/
def Program.Declares (p : Program) (code : Code) (name : String)
    (t : DeclaredType) : Prop :=
  ∃ v, (p.table code).find? name = some v ∧ v.type = t

/-! ## Names in operators -/

/-- The variables and functions that an expression uses all have a property, its
literals are scalars, and its operators have a meaning. -/
inductive Expr.Uses (targets : Occurrence → Prop) (functions : Callee → Prop) :
    Expr → Prop where
  | literal (s) : Uses targets functions (.literal (.scalar s))
  | read {target} (h : targets target) : Uses targets functions (.read target)
  | slot {target index} (h : targets target)
      (hindex : Uses targets functions index) :
      Uses targets functions (.slot target index)
  | sign {symbol operand} (h : Uses targets functions operand) :
      Uses targets functions (.sign symbol operand)
  | arithmetic {op left right} (known : ∀ symbol, op ≠ .other symbol)
      (hleft : Uses targets functions left) (hright : Uses targets functions right) :
      Uses targets functions (.arithmetic op left right)
  | condition {op left right} (known : ∀ symbol, op ≠ .compare (.other symbol))
      (hleft : Uses targets functions left) (hright : Uses targets functions right) :
      Uses targets functions (.condition op left right)
  | call {name callee arguments} (h : functions callee)
      (harguments : ∀ e ∈ arguments, Uses targets functions e) :
      Uses targets functions (.call name callee arguments)

/-- What is allowed to expressions may be weakened. -/
theorem Expr.Uses.imp {targets targets' : Occurrence → Prop}
    {functions functions' : Callee → Prop} {e : Expr}
    (h : e.Uses targets functions) (hv : ∀ o, targets o → targets' o)
    (hf : ∀ c, functions c → functions' c) : e.Uses targets' functions' := by
  induction h with
  | literal s => exact .literal s
  | read h => exact .read (hv _ h)
  | slot h _ ih => exact .slot (hv _ h) ih
  | sign _ ih => exact .sign ih
  | arithmetic known _ _ ih ih' => exact .arithmetic known ih ih'
  | condition known _ _ ih ih' => exact .condition known ih ih'
  | call h _ ih => exact .call (hf _ h) ih

/-- The same for all that an operator itself uses. -/
def Operator.Uses (targets : Occurrence → Prop) (functions : Callee → Prop) :
    Operator → Prop
  | .branch e | .elseIf e | .loop e | .output e => e.Uses targets functions
  | .declaration _ _ initial => ∀ e ∈ initial, e.Uses targets functions
  | .assignment target element value =>
    targets target ∧ (∀ e ∈ element, e.Uses targets functions) ∧
      value.Uses targets functions
  | .input target => targets target
  | .call _ callee arguments =>
    functions callee ∧ ∀ e ∈ arguments, e.Uses targets functions
  | .giveBack result => ∀ e ∈ result, e.Uses targets functions
  | _ => True

/-- What is allowed to operators may be weakened. -/
theorem Operator.Uses.imp {targets targets' : Occurrence → Prop}
    {functions functions' : Callee → Prop} {op : Operator}
    (h : op.Uses targets functions) (hv : ∀ o, targets o → targets' o)
    (hf : ∀ c, functions c → functions' c) : op.Uses targets' functions' := by
  cases op with
  | branch _ | elseIf _ | loop _ | output _ => exact Expr.Uses.imp h hv hf
  | declaration _ _ initial => exact fun e he => (h e he).imp hv hf
  | assignment target element value =>
    exact ⟨hv _ h.1, fun e he => (h.2.1 e he).imp hv hf, h.2.2.imp hv hf⟩
  | input target => exact hv _ h
  | call _ callee arguments => exact ⟨hf _ h.1, fun e he => (h.2 e he).imp hv hf⟩
  | giveBack result => exact fun e he => (h e he).imp hv hf
  | _ => trivial

/-- Whether an operator's nested operators are executed only on a condition. -/
def Operator.isConditional : Operator → Bool
  | .branch _ | .elseIf _ | .elseBranch | .loop _ => true
  | _ => false

/-! ## Where operators lie -/

/-- The operators that are reached from a place without leaving its code; the
truth value tells whether a loop or a conditional lies between. -/
inductive Forest.Inside (f : Forest Operator) (start : Nat) : Bool → Nat → Prop where
  | here : Inside f start false start
  | next {nested i j node} (before : Inside f start nested i)
      (found : f.nodes[i]? = some node) (link : node.links.sibling = some j) :
      Inside f start nested j
  | main {nested i j node} (before : Inside f start nested i)
      (found : f.nodes[i]? = some node) (mark : node.operator = .beginning)
      (link : node.links.child = some j) : Inside f start nested j
  | nested {nested i j node} (before : Inside f start nested i)
      (found : f.nodes[i]? = some node)
      (conditional : node.operator.isConditional = true)
      (link : node.links.child = some j) : Inside f start true j
  | branch {nested i j node} (before : Inside f start nested i)
      (found : f.nodes[i]? = some node)
      (link : j ∈ node.links.alternatives ∨ node.links.fallback = some j) :
      Inside f start true j

/-- Whether an operator is part of some code, and whether it is nested there in a
loop or a conditional. -/
def Program.Within (p : Program) (code : Code) (nested : Bool) (i : Nat) : Prop :=
  match code.function with
  | some n => ∃ f start, p.functions[n]? = some f ∧ f.body = some start ∧
      p.forest.Inside start nested i
  | none => ∃ root node name start, root ∈ p.forest.roots ∧
      p.forest.nodes[root]? = some node ∧
      node.operator = .module name code.module ∧
      node.links.child = some start ∧ p.forest.Inside start nested i

/-- Whether code declares a name somewhere inside a loop or a conditional. -/
def Program.DeclaresConditionally (p : Program) (code : Code) (name : String) :
    Prop :=
  ∃ i node t initial, p.Within code true i ∧ p.forest.nodes[i]? = some node ∧
    node.operator = .declaration t name initial

/-! ## Charts -/

/-- What a chart says of an operator: the code it is part of, whether it is nested
there in a loop or a conditional, and the names that are declared for certain
before it. -/
structure Label where
  code : Code
  nested : Bool
  seen : List String

/-- The label of the operator behind one. -/
def Label.after (label : Label) : Operator → Label
  | .declaration _ name _ =>
    if label.nested then label else { label with seen := label.seen ++ [name] }
  | _ => label

/-- The label of what is nested in an operator. -/
def Label.inside (label : Label) : Label := { label with nested := true }

namespace Label

/-- Behind an operator the code is the same. -/
theorem after_code (label : Label) (op : Operator) :
    (label.after op).code = label.code := by
  unfold after
  split
  · split <;> rfl
  · rfl

/-- Behind an operator the nesting is the same. -/
theorem after_nested (label : Label) (op : Operator) :
    (label.after op).nested = label.nested := by
  unfold after
  split
  · split <;> rfl
  · rfl

/-- Behind a nested operator nothing more is declared for certain. -/
theorem after_of_nested {label : Label} (h : label.nested = true)
    (op : Operator) : label.after op = label := by
  unfold after
  split
  · rw [if_pos h]
  · rfl

/-- A name that is declared for certain behind an operator was so before, or is declared
by it. -/
theorem seen_after {label : Label} {op : Operator} {name : String}
    (h : name ∈ (label.after op).seen) :
    name ∈ label.seen ∨ ∃ t initial, op = .declaration t name initial := by
  unfold after at h
  split at h
  · split at h
    · exact .inl h
    · obtain h | h := List.mem_append.mp h
      · exact .inl h
      · rw [List.mem_singleton] at h
        subst h
        exact .inr ⟨_, _, rfl⟩
  · exact .inl h

/-- A name that is declared for certain stays so. -/
theorem mem_after {label : Label} {op : Operator} {name : String}
    (h : name ∈ label.seen) : name ∈ (label.after op).seen := by
  unfold after
  split
  · split
    · exact h
    · exact List.mem_append_left _ h
  · exact h

/-- A declaration that is not nested is one for certain. -/
theorem mem_after_declaration {label : Label} (h : label.nested = false)
    (t : DeclaredType) (name : String) (initial : Option Expr) :
    name ∈ (label.after (.declaration t name initial)).seen := by
  simp [after, h]

end Label

/-- What a chart says of a function: its module, and the module's names that are
declared for certain before it. -/
structure Note where
  module : Nat
  outer : List String

/-- Labels for operators, save for those that are not executed in any code, and
notes for functions. -/
structure Chart where
  labels : List (Option Label) := []
  notes : List Note := []

/-- Whether an operator may stand where a label says: only functions give something
back, and further branches are nested. -/
def Operator.Allowed (label : Label) : Operator → Prop
  | .giveBack _ => label.code.function ≠ none
  | .elseIf _ | .elseBranch => label.nested = true
  | _ => True

/-- Whether an operator does something where it stands, and so has a label. -/
def Operator.Labelled : Operator → Prop
  | .module .. | .function .. | .method .. => False
  | _ => True

namespace Chart

/-- Whether a chart gives a label to a place. -/
def Marks (c : Chart) (i : Nat) (label : Label) : Prop :=
  c.labels[i]? = some (some label)

/-- The names of a chart that code declares only inside loops or conditionals. -/
def Doubts (c : Chart) (p : Program) (code : Code) (name : String) : Prop :=
  ∃ i label node t initial, c.Marks i label ∧ label.code = code ∧
    label.nested = true ∧ p.forest.nodes[i]? = some node ∧
    node.operator = .declaration t name initial

/-- Whether a name of the module is declared for certain where a label stands. -/
def Surrounds (c : Chart) (label : Label) (name : String) : Prop :=
  match label.code.function with
  | none => name ∈ label.seen
  | some n => ∃ note, c.notes[n]? = some note ∧ name ∈ note.outer

/-- Whether an occurrence was found where a label says, doubtful names apart. -/
def Resolves (c : Chart) (p : Program) (label : Label) (o : Occurrence) : Prop :=
  ∃ home, o.site = some ⟨label.code.module, label.code.function, home⟩ ∧
    match home with
    | .call => label.code.function ≠ none ∧
        (o.name ∈ label.seen ∨ c.Doubts p label.code o.name)
    | .module => (label.code.function ≠ none → o.name ∉ label.seen) ∧
        (c.Surrounds label o.name ∨ c.Doubts p label.code.outside o.name)

/-- Whether a function can be called where a label stands: it is of the same
module, and what was declared before it is declared. -/
def Calls (c : Chart) (label : Label) (callee : Callee) : Prop :=
  ∃ n note, callee = .declared n ∧ c.notes[n]? = some note ∧
    note.module = label.code.module ∧ ∀ name ∈ note.outer, c.Surrounds label name

/-- Whether an operator agrees with a label. -/
structure Fits (c : Chart) (p : Program) (label : Label) (node : Node Operator) :
    Prop where
  uses : node.operator.Uses (c.Resolves p label) (c.Calls label)
  declares : ∀ t name initial, node.operator = .declaration t name initial →
    p.Declares label.code name t
  inner : ∀ name number, node.operator ≠ .module name number
  allowed : node.operator.Allowed label
  sibling : ∀ j, node.links.sibling = some j →
    node.operator ≠ .beginning ∧ c.Marks j (label.after node.operator)
  main : ∀ j, node.links.child = some j → node.operator = .beginning →
    c.Marks j label
  child : ∀ j, node.links.child = some j → node.operator.isConditional = true →
    c.Marks j label.inside
  branches : ∀ j, j ∈ node.links.alternatives ∨ node.links.fallback = some j →
    c.Marks j label.inside
  fallback : ∀ j, node.links.fallback = some j → ∃ q, p.forest.nodes[j]? = some q ∧
    q.operator.isConditional = true

/-- Whether a function agrees with its note. -/
structure FitsFunction (c : Chart) (p : Program) (n : Nat)
    (f : FunctionDeclaration) (note : Note) : Prop where
  module : ∃ m, p.modules[note.module]? = some m ∧ m.name = f.module
  parameters : ∀ q ∈ f.parameters,
    p.Declares ⟨note.module, some n⟩ q.name q.type
  body : ∀ start, f.body = some start →
    c.Marks start ⟨⟨note.module, some n⟩, false, f.parameters.map Parameter.name⟩

/-- Whether the operator where a tree begins is a module of the program. -/
def FitsRoot (c : Chart) (p : Program) (node : Node Operator) : Prop :=
  ∃ name number m, node.operator = .module name number ∧
    p.modules[number]? = some m ∧ m.name = name ∧
    ∀ start, node.links.child = some start →
      c.Marks start ⟨⟨number, none⟩, false, []⟩

end Chart

/-- A chart agrees with a program. -/
structure Layout (p : Program) (c : Chart) : Prop where
  labels : c.labels.length = p.forest.nodes.size
  notes : c.notes.length = p.functions.size
  nodes : ∀ i label node, c.Marks i label → p.forest.nodes[i]? = some node →
    c.Fits p label node
  marked : ∀ i node, p.forest.nodes[i]? = some node → node.operator.Labelled →
    ∃ label, c.Marks i label
  functions : ∀ n f, p.functions[n]? = some f →
    ∃ note, c.notes[n]? = some note ∧ c.FitsFunction p n f note
  roots : ∀ root ∈ p.forest.roots, ∃ node,
    p.forest.nodes[root]? = some node ∧ c.FitsRoot p node

/-- Only operators have labels. -/
theorem Layout.marks_lt {p : Program} {c : Chart} (h : Layout p c) {i : Nat}
    {label : Label} (hmarks : c.Marks i label) : i < p.forest.nodes.size := by
  rw [← h.labels]
  exact (List.getElem?_eq_some_iff.mp hmarks).1

/-- Every operator with a label is part of the code of the label. -/
def Anchored (p : Program) (c : Chart) : Prop :=
  ∀ i label, c.Marks i label → p.Within label.code label.nested i

/-- What a chart doubts is declared in a nested place of the code. -/
theorem Anchored.declaresConditionally {p : Program} {c : Chart} {code : Code}
    {name : String} (h : Anchored p c) (hdoubts : c.Doubts p code name) :
    p.DeclaresConditionally code name := by
  obtain ⟨i, label, node, t, initial, hmarks, rfl, hnested, hnode, hop⟩ := hdoubts
  have hwithin := h i label hmarks
  rw [hnested] at hwithin
  exact ⟨i, node, t, initial, hwithin, hnode, hop⟩

end Pseudocode
