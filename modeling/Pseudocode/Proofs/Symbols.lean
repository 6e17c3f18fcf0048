import Mathlib.Data.List.Nodup
import Pseudocode.Proofs.Source.Outcomes
import Pseudocode.Proofs.Tree.Parts

/-!
# Tables and trees tell the same

A program has tables and trees, and they are made at different moments: a function is in
its module's table before its body is read and in a tree behind it, a variable is in a
table behind its initial value, and a whole block is hung into its tree when it ends.
`Tables.Enters` has brought this to one order, that of the source.  Here the tables are
read off the trees:

* a body declares its variables and nothing else (`Enters.body`), so that a function can
  be taken in one step (`Tables.define`);
* a module's tables are what is found in its trees (`Enters.changed`), those of a class
  are its row of methods (`Enters.methods`), and those of a function are its parameters
  and what is found in its body (`Enters.recorded`);
* functions and classes have the numbers in the order in which they are found
  (`Enters.functions`, `Enters.classes`);
* what is called is in the tables when it is called, hence it is found in the trees of
  the same module (`Enters.uses`), since a module begins with nothing to call.

`Program.tables_match` puts this together for all modules.
-/

namespace Pseudocode

open Source

/-- The tables of a function say what there is in its body. -/
structure Source.Signature.Records (s : Signature) (table : Variables)
    (name module : String) (body : List (Tree Operator)) : Prop where
  name : s.name = name
  module : s.module = module
  vars : table.entries = s.entries ++ Tree.found (fun _ => false) Operator.declared? body
  distinct : (table.entries.map Prod.fst).Nodup

/-- The tables of a class say what there is in its row of methods. -/
structure ClassDeclaration.Records (ofClass : ClassDeclaration) (name : String)
    (methods : List (Tree Operator)) : Prop where
  name : ofClass.name = name
  methods : methods.map Tree.operator =
    ofClass.methods.entries.map fun entry => .method entry.1 entry.2

/-- The tables of a module say what there is in its trees.  Its own variables are outside
functions; and what is called, wherever that is, is a function or a method of the module. -/
structure Program.Records (p : Program) (m : ModuleDeclaration)
    (trees : List (Tree Operator)) : Prop where
  vars : m.vars.entries = Tree.found Operator.hasCode Operator.declared? trees
  distinct : (m.vars.entries.map Prod.fst).Nodup
  functions : m.functions.entries = Tree.found (fun _ => false) Operator.function? trees
  classes : m.classes.entries = Tree.found (fun _ => false) Operator.class? trees
  methods : ∀ part ∈ Tree.all trees, ∀ name c, part.operator.class? = some (name, c) →
    ∃ ofClass, p.classes[c]? = some ofClass ∧ ofClass.Records name part.nested
  bodies : ∀ part ∈ Tree.all trees, ∀ name n, part.operator.code? = some (name, n) →
    ∃ f, p.functions[n]? = some f ∧ f.signature.Records f.vars name m.name part.nested
  calls : ∀ part ∈ Tree.all trees, part.operator.Uses (fun _ => True) fun callee =>
    ∃ called ∈ Tree.all trees, ∃ name n,
      called.operator.code? = some (name, n) ∧ callee = .declared n

/-- A plain operator has nothing that could be found. -/
theorem Operator.Plain.none {operator : Operator} (h : operator.Plain) :
    operator.declared? = .none ∧ operator.function? = .none ∧ operator.code? = .none ∧
      operator.class? = .none ∧ operator.hasCode = false := by
  cases operator <;> first | exact h.elim | exact ⟨rfl, rfl, rfl, rfl, rfl⟩

/-! ## What the operations on tables leave alone

To enter a name into one table changes no other one, and to enter a function changes none of
those that were entered before. -/

namespace Tables

variable {t t₁ t' : Tables} {place : Place} {name : String} {n : Nat} {callee : Callee}

/-- A change of the open module is what is open then. -/
theorem openModule?_changeModule (t : Tables)
    (change : ModuleDeclaration → ModuleDeclaration) :
    (t.changeModule change).openModule? = t.openModule?.map change := by
  unfold openModule? changeModule
  cases t.module with
  | none => rfl
  | some k =>
    simp only [Option.bind_some, List.getElem?_modify]
    rfl

/-- With one more name in the table of a place there is one more function to call. -/
theorem calls_name (h : (t.name place name n).Calls callee) :
    t.Calls callee ∨ callee = .declared n := by
  obtain ⟨i, m, rfl, hm, hcalled⟩ := h
  cases place with
  | module =>
    have hopen : (t.name .module name n).openModule? = t.openModule?.map fun m =>
        { m with functions := m.functions.append [(name, n)] } :=
      openModule?_changeModule t _
    rw [hopen, Option.map_eq_some_iff] at hm
    obtain ⟨m, hm, rfl⟩ := hm
    rcases hcalled with hfunction | ⟨c, ofClass, hc, hclass, hmethod⟩
    · simp only [Table.append, List.map_append, List.mem_append] at hfunction
      rcases hfunction with hold | hnew
      · exact .inl ⟨i, m, rfl, hm, .inl hold⟩
      · right
        simpa using hnew
    · exact .inl ⟨i, m, rfl, hm, .inr ⟨c, ofClass, hc, hclass, hmethod⟩⟩
  | classOf owner k =>
    have hm : t.openModule? = some m := hm
    rcases hcalled with hfunction | ⟨c, ofClass, hc, hclass, hmethod⟩
    · exact .inl ⟨i, m, rfl, hm, .inl hfunction⟩
    · change (t.classes.modify k _)[c]? = _ at hclass
      rw [List.getElem?_modify] at hclass
      obtain ⟨old, hold, hchange⟩ := Option.map_eq_some_iff.mp hclass
      by_cases hk : k = c
      · rw [if_pos hk] at hchange
        rw [← hchange] at hmethod
        simp only [Table.append, List.map_append, List.mem_append] at hmethod
        rcases hmethod with hmethod | hnew
        · exact .inl ⟨i, m, rfl, hm, .inr ⟨c, old, hc, hold, hmethod⟩⟩
        · right
          simpa using hnew
      · rw [if_neg hk] at hchange
        rw [← hchange] at hmethod
        exact .inl ⟨i, m, rfl, hm, .inr ⟨c, old, hc, hold, hmethod⟩⟩

/-- A variable more makes no difference to what can be called. -/
theorem calls_declare (entries : List (String × Variable))
    (h : (t.declare entries).Calls callee) : t.Calls callee := by
  cases hfunction : t.function with
  | some k =>
    rw [declare_function hfunction] at h
    exact h
  | none =>
    rw [declare_module hfunction] at h
    obtain ⟨i, m, rfl, hm, hcalled⟩ := h
    rw [openModule?_changeModule, Option.map_eq_some_iff] at hm
    obtain ⟨m, hm, rfl⟩ := hm
    exact ⟨i, m, rfl, hm, hcalled⟩

/-- A class has no methods at first. -/
theorem calls_openClass (h : (t.openClass name).Calls callee) : t.Calls callee := by
  obtain ⟨i, m, rfl, hm, hcalled⟩ := h
  have hopen : (t.openClass name).openModule? = t.openModule?.map fun m =>
      { m with classes := m.classes.append [(name, t.classes.length)] } :=
    openModule?_changeModule t _
  rw [hopen, Option.map_eq_some_iff] at hm
  obtain ⟨m, hm, rfl⟩ := hm
  rcases hcalled with hfunction | ⟨c, ofClass, hc, hclass, hmethod⟩
  · exact ⟨i, m, rfl, hm, .inl hfunction⟩
  · change (t.classes ++ [{ name := name }])[c]? = _ at hclass
    rw [List.getElem?_append] at hclass
    split at hclass
    · next hlt =>
      simp only [Table.append, List.map_append, List.mem_append] at hc
      rcases hc with hc | hnew
      · exact ⟨i, m, rfl, hm, .inr ⟨c, ofClass, hc, hclass, hmethod⟩⟩
      · have hlast : c = t.classes.length := by simpa using hnew
        omega
    · rw [List.getElem?_singleton] at hclass
      split at hclass
      · cases hclass
        cases hmethod
      · cases hclass

/-- A new name leaves the names different. -/
theorem distinct_declare {v : Variable} (hnew : name ∉ t.vars.map Prod.fst)
    (h : (t.vars.map Prod.fst).Nodup) : ((t.declare [(name, v)]).vars.map Prod.fst).Nodup := by
  have hmore : ((t.vars ++ [(name, v)]).map Prod.fst).Nodup := by
    rw [List.map_append, List.map_singleton, ← List.concat_eq_append]
    exact h.concat hnew
  cases hfunction : t.function with
  | some k =>
    rw [declare_function hfunction]
    unfold vars at hmore ⊢
    simp only [hfunction, List.getElem?_modify] at hmore ⊢
    cases hk : t.functions[k]? with
    | none => simp
    | some f => simpa [hk, Table.append] using hmore
  | none =>
    rw [declare_module hfunction]
    unfold vars at hmore ⊢
    rw [openModule?_changeModule]
    rw [show (t.changeModule _).function = none from hfunction]
    simp only [hfunction] at hmore ⊢
    cases hm : t.openModule? with
    | none => simp
    | some m => simpa [hm, Table.append] using hmore

/-! ## Bodies

The statements of a body enter variables into one table and nothing else, in the order of the
tree. -/

/-- What a whole function comes to: its name in the table of its place, its parameters
and the variables of its body. -/
def define (t : Tables) (place : Place) (s : Signature) (vars : List (String × Variable)) :
    Tables :=
  { t.name place s.name t.functions.length with
    functions := t.functions ++ [(s, ⟨.variableName, s.entries ++ vars⟩)]
    function := none }

/-- To enter a function, declare its variables and leave it, is to define it. -/
theorem leave_declare_enter (t : Tables) (place : Place) (s : Signature)
    (vars : List (String × Variable)) :
    ((t.enter place s).declare vars).leave = t.define place s vars := by
  have hopen : (t.enter place s).function = some t.functions.length := rfl
  rw [declare_function hopen]
  have hlast := Draft.modify_length t.functions (s, ⟨.variableName, s.entries⟩)
    fun f => (f.1, f.2.append vars)
  exact congrArg (fun functions =>
    { t.name place s.name t.functions.length with functions, function := none }) hlast

/-- The variables of a function are its parameters at first. -/
theorem vars_enter (t : Tables) (place : Place) (s : Signature) :
    (t.enter place s).vars = s.entries :=
  vars_function (t := t.enter place s) (f := (s, ⟨.variableName, s.entries⟩)) rfl
    List.getElem?_concat_length

/-- What operators of a body are. -/
structure Statement (t : Tables) (operator : Operator) : Prop where
  code : operator.code? = none
  class_none : operator.class? = none
  uses : operator.Uses (fun _ => True) t.Calls

/-- A body declares its variables, and nothing else. -/
theorem Enters.body {row : Option Place} {trees : List (Tree Operator)}
    (h : Enters row t trees t') (hrow : row = none) :
    t' = t.declare (Tree.found (fun _ => false) Operator.declared? trees) ∧
      ∀ part ∈ Tree.all trees, t.Statement part.operator := by
  induction h with
  | @nothing row t =>
    exact ⟨(declare_nil t).symm, fun part hpart => absurd hpart List.not_mem_nil⟩
  | @declaration row t type name initial trees t' mixed uses fresh rest ih =>
    obtain ⟨ht', hstatements⟩ := ih hrow
    refine ⟨?_, fun part hpart => ?_⟩
    · rw [ht', declare_declare, Tree.leaf, Tree.found_cons]
      rfl
    · rcases Tree.mem_all_cons.mp hpart with rfl | hinside | hrest
      · exact ⟨rfl, rfl, uses⟩
      · cases hinside
      · obtain ⟨hcode, hclass, huses⟩ := hstatements part hrest
        exact ⟨hcode, hclass, huses.imp (fun _ h => h) fun _ => calls_declare _⟩
  | @plain row t operator nested alternatives fallback t₁ trees t' mixed plain uses inside rest
      ih ih' =>
    obtain ⟨ht₁, hinner⟩ := ih hrow
    obtain ⟨ht', houter⟩ := ih' hrow
    obtain ⟨hvariable, -, hcode, hclass, -⟩ := plain.none
    refine ⟨?_, fun part hpart => ?_⟩
    · rw [ht', ht₁, declare_declare, Tree.found_cons, hvariable]
      rfl
    · rcases Tree.mem_all_cons.mp hpart with rfl | hinside | hrest
      · exact ⟨hcode, hclass, uses⟩
      · exact hinner part hinside
      · obtain ⟨hcode, hclass, huses⟩ := houter part hrest
        rw [ht₁] at huses
        exact ⟨hcode, hclass, huses.imp (fun _ h => h) fun _ => calls_declare _⟩
  | function => cases hrow
  | classDeclaration => cases hrow

/-- Behind a function its tables are complete. -/
theorem Enters.leave {place : Place} {s : Signature} {nested : List (Tree Operator)}
    (h : Enters none (t.enter place s) nested t₁) :
    t₁.leave = t.define place s (Tree.found (fun _ => false) Operator.declared? nested) := by
  rw [(h.body rfl).1, leave_declare_enter]

/-! ## What a module has

The tables of a module are those it had, and behind them what the trees enter; no other module
has changed (`Changed`). -/

/-- A module with what there is in trees: its variables are those outside functions. -/
def grown (trees : List (Tree Operator)) (m : ModuleDeclaration) : ModuleDeclaration :=
  { m with
    vars := m.vars.append (Tree.found Operator.hasCode Operator.declared? trees)
    functions := m.functions.append (Tree.found (fun _ => false) Operator.function? trees)
    classes := m.classes.append (Tree.found (fun _ => false) Operator.class? trees) }

/-- Other tables for the open module, and the same module open. -/
structure Changed (t : Tables) (change : ModuleDeclaration → ModuleDeclaration)
    (t' : Tables) : Prop where
  module : t'.module = t.module
  function : t'.function = none
  modules : t'.modules = (t.changeModule change).modules

/-- Nothing is changed. -/
theorem Changed.same (hfunction : t.function = none) : t.Changed (fun m => m) t :=
  ⟨rfl, hfunction, by rw [changeModule_id]⟩

/-- One change after another is a change by both. -/
theorem Changed.trans {change change' : ModuleDeclaration → ModuleDeclaration}
    (h : t.Changed change t₁) (h' : t₁.Changed change' t') :
    t.Changed (fun m => change' (change m)) t' := by
  refine ⟨h'.module.trans h.module, h'.function, ?_⟩
  rw [h'.modules, ← changeModule_changeModule t change change']
  unfold changeModule
  rw [h.module, h.modules]
  rfl

/-- The module that is open is the one that was changed. -/
theorem Changed.openModule? {change : ModuleDeclaration → ModuleDeclaration}
    (h : t.Changed change t') : t'.openModule? = t.openModule?.map change := by
  rw [← openModule?_changeModule]
  unfold Tables.openModule?
  rw [h.module, h.modules]
  rfl

/-- A module that got nothing is as it was. -/
theorem grown_nil : grown [] = fun m => m := by
  funext m
  show ({ m with
    vars := m.vars.append [], functions := m.functions.append [],
    classes := m.classes.append [] } : ModuleDeclaration) = m
  rw [Table.append_nil, Table.append_nil, Table.append_nil]

/-- What a module gets from one operator. -/
theorem grown_leaf (operator : Operator) :
    grown [.leaf operator] = fun m => { m with
      vars := m.vars.append operator.declared?.toList
      functions := m.functions.append operator.function?.toList
      classes := m.classes.append operator.class?.toList } := by
  funext m
  simp [grown, Tree.leaf, Tree.found_cons]

/-- First there is the operator itself, then what is nested in it, then what follows. -/
theorem grown_cons {operator : Operator} {nested alternatives trees : List (Tree Operator)}
    {fallback : Option (Tree Operator)} (hcode : operator.hasCode = false) :
    grown (.node operator nested alternatives fallback :: trees) = fun m =>
      grown trees (grown (nested ++ alternatives ++ fallback.toList)
        (grown [.leaf operator] m)) := by
  funext m
  simp [grown, Tree.leaf, Tree.found_cons, hcode, Table.append_append]

/-- What a function holds is no concern of the module. -/
theorem grown_function {nested trees : List (Tree Operator)} {number : Nat}
    (hbody : ∀ part ∈ Tree.all nested, t.Statement part.operator) :
    grown (.node (place.operator name number) nested [] none :: trees) = fun m =>
      grown trees (grown [.leaf (place.operator name number)] m) := by
  have hfunctions : Tree.found (fun _ => false) Operator.function? nested = [] :=
    Tree.found_eq_nil fun part hpart =>
      (Option.or_eq_none_iff.mp (hbody part hpart).code).1
  have hclasses : Tree.found (fun _ => false) Operator.class? nested = [] :=
    Tree.found_eq_nil fun part hpart => (hbody part hpart).class_none
  have hcode : (place.operator name number).hasCode = true := by
    cases place <;> rfl
  funext m
  simp [grown, Tree.leaf, Tree.found_cons, hcode, hfunctions, hclasses, Table.append_append]

/-- A variable outside of functions goes into the module's table. -/
theorem changed_declaration (hfunction : t.function = none) (type : DeclaredType)
    (name : String) (initial : Option Expr) :
    t.Changed (grown [.leaf (.declaration type name initial)])
      (t.declare [(name, ⟨type, initial.map .deferred⟩)]) := by
  have hgrown : grown [.leaf (.declaration type name initial)] = fun m =>
      { m with vars := m.vars.append [(name, ⟨type, initial.map .deferred⟩)] } := by
    simp [grown_leaf, Operator.declared?, Operator.function?, Operator.class?,
      Table.append_nil]
  rw [hgrown, declare_module hfunction]
  exact ⟨rfl, hfunction, rfl⟩

/-- A class goes into the module's table, under its number. -/
theorem changed_openClass (hfunction : t.function = none) (name : String) :
    t.Changed (grown [.leaf (.classDeclaration name t.classes.length)])
      (t.openClass name) := by
  have hgrown : grown [.leaf (.classDeclaration name t.classes.length)] = fun m =>
      { m with classes := m.classes.append [(name, t.classes.length)] } := by
    simp [grown_leaf, Operator.declared?, Operator.function?, Operator.class?,
      Table.append_nil]
  rw [hgrown]
  exact ⟨rfl, hfunction, rfl⟩

/-- A function goes into the module's table under its number; a method does not. -/
theorem changed_define (place : Place) (s : Signature) (vars : List (String × Variable)) :
    t.Changed (grown [.leaf (place.operator s.name t.functions.length)])
      (t.define place s vars) := by
  cases place with
  | module =>
    have hgrown : grown [.leaf (Place.module.operator s.name t.functions.length)] = fun m =>
        { m with functions := m.functions.append [(s.name, t.functions.length)] } := by
      simp [grown_leaf, Place.operator, Operator.declared?, Operator.function?,
        Operator.class?, Table.append_nil]
    rw [hgrown]
    exact ⟨rfl, rfl, rfl⟩
  | classOf owner c =>
    have hgrown : grown [.leaf ((Place.classOf owner c).operator s.name
        t.functions.length)] = fun m => m := by
      simp [grown_leaf, Place.operator, Operator.declared?, Operator.function?,
        Operator.class?, Table.append_nil]
    rw [hgrown]
    refine ⟨rfl, rfl, ?_⟩
    rw [changeModule_id]
    rfl

/-- The variables, functions and classes in trees are entered into the open module. -/
theorem Enters.changed {row : Option Place} {trees : List (Tree Operator)}
    (h : Enters row t trees t') (hfunction : t.function = none) :
    t.Changed (grown trees) t' := by
  induction h with
  | nothing =>
    rw [grown_nil]
    exact .same hfunction
  | @declaration row t type name initial trees t' mixed uses fresh rest ih =>
    have hdeclared := changed_declaration hfunction type name initial
    rw [Tree.leaf, grown_cons rfl, Tree.nested_alone, grown_nil]
    exact hdeclared.trans (ih hdeclared.function)
  | @plain row t operator nested alternatives fallback t₁ trees t' mixed plain uses inside rest
      ih ih' =>
    obtain ⟨hvariable, hfunction?, -, hclass, hcode⟩ := plain.none
    have hinner := ih hfunction
    have hgrown : grown [.leaf operator] = fun m => m := by
      simp [grown_leaf, hvariable, hfunction?, hclass, Table.append_nil]
    rw [grown_cons hcode, hgrown]
    exact hinner.trans (ih' hinner.function)
  | @function place t s nested t₁ trees t' module distinct inside rest _ ih =>
    have hdefined := changed_define (t := t) place s
      (Tree.found (fun _ => false) Operator.declared? nested)
    rw [inside.leave] at ih
    rw [grown_function (inside.body rfl).2]
    exact hdefined.trans (ih hdefined.function)
  | @classDeclaration t name methods t₁ trees t' inside rest ih ih' =>
    have hopened := changed_openClass hfunction name
    have hinner := ih hopened.function
    rw [grown_cons rfl, Tree.nested_alone]
    exact (hopened.trans hinner).trans (ih' hinner.function)

/-! ## What is known of functions

Each function of the table stands for one function of the tree, with its header and with the
variables of its parameters and its body. -/

/-- A variable of a module changes no function. -/
theorem functions_declare (hfunction : t.function = none)
    (entries : List (String × Variable)) : (t.declare entries).functions = t.functions := by
  rw [declare_module hfunction]
  rfl

/-- The operator of a function or a method tells its number. -/
theorem code?_operator (place : Place) (name : String) (number : Nat) :
    (place.operator name number).code? = some (name, number) := by
  cases place <;> rfl

/-- Functions are numbered in the order of the source. -/
theorem Enters.functions {row : Option Place} {trees : List (Tree Operator)}
    (h : Enters row t trees t') (hfunction : t.function = none) :
    Numbered t.functions (Tree.numbers Operator.code? trees) t'.functions := by
  induction h with
  | nothing => exact .same _
  | @declaration row t type name initial trees t' mixed uses fresh rest ih =>
    have hrest := ih (changed_declaration hfunction type name initial).function
    rw [functions_declare hfunction] at hrest
    rw [Tree.leaf, Tree.numbers_cons]
    exact hrest
  | plain mixed plain uses inside rest ih ih' =>
    obtain ⟨-, -, hcode, -, -⟩ := plain.none
    rw [Tree.numbers_cons, hcode]
    exact (ih hfunction).trans (ih' (inside.changed hfunction).function)
  | @function place t s nested t₁ trees t' module distinct inside rest _ ih =>
    have hnested : Tree.numbers Operator.code? nested = [] :=
      Tree.numbers_eq_nil fun part hpart => ((inside.body rfl).2 part hpart).code
    rw [inside.leave] at ih
    rw [Tree.numbers_cons, code?_operator, Tree.nested_alone, hnested]
    exact (Numbered.one t.functions _).trans (ih rfl)
  | @classDeclaration t name methods t₁ trees t' inside rest ih ih' =>
    have hopened := changed_openClass hfunction name
    rw [Tree.numbers_cons, Tree.nested_alone]
    exact (ih hopened.function).trans (ih' (inside.changed hopened.function).function)

/-- What declares no variable leaves those of the open module. -/
theorem Changed.vars_eq {operator : Operator} (h : t.Changed (grown [.leaf operator]) t')
    (hfunction : t.function = none) (hvariable : operator.declared? = none) :
    t'.vars = t.vars := by
  unfold vars
  rw [hfunction, h.function, h.openModule?, grown_leaf, hvariable, Option.map_map]
  simp only [Option.toList_none, Table.append_nil]
  rfl

/-- The names in one table of variables stay different.  Either this is a body, and the
table is that of the open function, or no function is open. -/
theorem Enters.distinct {row : Option Place} {trees : List (Tree Operator)}
    (h : Enters row t trees t') (hrow : row = none ∨ t.function = none)
    (hnames : (t.vars.map Prod.fst).Nodup) : (t'.vars.map Prod.fst).Nodup := by
  induction h with
  | nothing => exact hnames
  | @declaration row t type name initial trees t' mixed uses fresh rest ih =>
    refine ih ?_ (distinct_declare fresh hnames)
    rcases hrow with hrow | hfunction
    · exact .inl hrow
    · exact .inr (changed_declaration hfunction type name initial).function
  | plain mixed plain uses inside rest ih ih' =>
    refine ih' ?_ (ih hrow hnames)
    rcases hrow with hrow | hfunction
    · exact .inl hrow
    · exact .inr (inside.changed hfunction).function
  | @function place t s nested t₁ trees t' module distinct inside rest _ ih =>
    have hfunction : t.function = none := hrow.resolve_left nofun
    rw [inside.leave] at ih
    refine ih (.inr rfl) ?_
    -- The open function is left, and the module has the variables it had before.
    rw [(changed_define place s _).vars_eq hfunction (by cases place <;> rfl)]
    exact hnames
  | @classDeclaration t name methods t₁ trees t' inside rest ih ih' =>
    have hfunction : t.function = none := hrow.resolve_left nofun
    have hopened := changed_openClass hfunction name
    refine ih' (.inr (inside.changed hopened.function).function)
      (ih (.inr hopened.function) ?_)
    rw [hopened.vars_eq hfunction rfl]
    exact hnames

/-- The names in the table of a function are different because they were so in the open
function when its body ended. -/
theorem recorded_define {s : Signature} {nested : List (Tree Operator)}
    (inside : Enters none (t.enter place s) nested t₁)
    (hdistinct : (s.parameters.map Parameter.name).Nodup) :
    s.Records ⟨.variableName,
      s.entries ++ Tree.found (fun _ => false) Operator.declared? nested⟩
      s.name s.module nested := by
  refine ⟨rfl, rfl, rfl, ?_⟩
  have hfunctions : t₁.functions = t₁.leave.functions := rfl
  rw [inside.leave] at hfunctions
  have hopen : t₁.function = some t.functions.length := by
    rw [(inside.body rfl).1, declare_function rfl]
    rfl
  have hvars : t₁.vars = s.entries ++ Tree.found (fun _ => false) Operator.declared? nested :=
    vars_function (f := (s, ⟨.variableName, _⟩)) hopen
      (by rw [hfunctions]; exact List.getElem?_concat_length)
  rw [← hvars]
  refine inside.distinct (.inl rfl) ?_
  rw [vars_enter, Signature.entries, List.map_map]
  exact hdistinct

/-- What is found in trees does not rename the module. -/
theorem Changed.openName {trees : List (Tree Operator)} (h : t.Changed (grown trees) t') :
    t'.openModule?.map ModuleDeclaration.name = t.openModule?.map ModuleDeclaration.name := by
  rw [h.openModule?, Option.map_map]
  rfl

/-- Of each function in trees the tables say what there is in its body. -/
theorem Enters.recorded {row : Option Place} {trees : List (Tree Operator)}
    (h : Enters row t trees t') (hfunction : t.function = none) {module : String}
    (hmodule : t.openModule?.map ModuleDeclaration.name = some module)
    {part : Tree Operator} (hpart : part ∈ Tree.all trees)
    (hcode : part.operator.code? = some (name, n)) :
    ∃ s vars, t'.functions[n]? = some (s, vars) ∧
      s.Records vars name module part.nested := by
  induction h with
  | nothing => cases hpart
  | @declaration row t type other initial trees t' mixed uses fresh rest ih =>
    have hdeclared := changed_declaration hfunction type other initial
    rcases Tree.mem_all_cons.mp hpart with rfl | hinside | hrest
    · cases hcode
    · cases hinside
    · exact ih hdeclared.function (hdeclared.openName.trans hmodule) hrest
  | plain mixed plain uses inside rest ih ih' =>
    have hinner := inside.changed hfunction
    rcases Tree.mem_all_cons.mp hpart with rfl | hinside | hrest
    · obtain ⟨-, -, hnone, -, -⟩ := plain.none
      exact absurd (hnone.symm.trans hcode) nofun
    · obtain ⟨s, vars, hfound, hrecorded⟩ := ih hfunction hmodule hinside
      exact ⟨s, vars, (rest.functions hinner.function).getElem? hfound, hrecorded⟩
    · exact ih' hinner.function (hinner.openName.trans hmodule) hrest
  | @function place t s nested t₁ trees t' hopen distinct inside rest _ ih =>
    have hdefined := changed_define (t := t) place s
      (Tree.found (fun _ => false) Operator.declared? nested)
    rw [inside.leave] at ih rest
    rcases Tree.mem_all_cons.mp hpart with rfl | hinside | hrest
    · -- The function itself: its tables are those of `define`, and stay so.
      cases (code?_operator place s.name t.functions.length).symm.trans hcode
      cases hopen.symm.trans hmodule
      exact ⟨s, _, (rest.functions rfl).getElem? List.getElem?_concat_length,
        recorded_define inside distinct⟩
    · rw [Tree.nested_alone] at hinside
      have hnone := ((inside.body rfl).2 part hinside).code
      exact absurd (hnone.symm.trans hcode) nofun
    · exact ih hdefined.function (hdefined.openName.trans hmodule) hrest
  | @classDeclaration t name methods t₁ trees t' inside rest ih ih' =>
    have hopened := changed_openClass hfunction name
    have hinner := inside.changed hopened.function
    have hmodule' := hopened.openName.trans hmodule
    rcases Tree.mem_all_cons.mp hpart with rfl | hinside | hrest
    · cases hcode
    · rw [Tree.nested_alone] at hinside
      obtain ⟨s, vars, hfound, hrecorded⟩ := ih hopened.function hmodule' hinside
      exact ⟨s, vars, (rest.functions hinner.function).getElem? hfound, hrecorded⟩
    · exact ih' hinner.function (hinner.openName.trans hmodule') hrest

/-! ## What is called

A call refers to a function that had been declared when it was read, and that was one of the
open module.  Later declarations do not change what the name stood for. -/

/-- What can be called with the functions in trees. -/
def Reaches (t : Tables) (trees : List (Tree Operator)) (callee : Callee) : Prop :=
  t.Calls callee ∨ ∃ n ∈ Tree.numbers Operator.code? trees, callee = .declared n

/-- What can be called may come to be called for another reason. -/
theorem Reaches.imp {trees more : List (Tree Operator)} (h : t₁.Reaches trees callee)
    (hcalls : t₁.Calls callee → t.Reaches more callee)
    (hmore : Tree.numbers Operator.code? trees ⊆ Tree.numbers Operator.code? more) :
    t.Reaches more callee := by
  rcases h with hold | ⟨n, hn, rfl⟩
  · exact hcalls hold
  · exact .inr ⟨n, hmore hn, rfl⟩

section

variable {operator : Operator} {nested alternatives trees : List (Tree Operator)}
  {fallback : Option (Tree Operator)}

/-- What can be called inside the first tree of a row is found in the row. -/
theorem Reaches.inside
    (h : t.Reaches (nested ++ alternatives ++ fallback.toList) callee) :
    t.Reaches (.node operator nested alternatives fallback :: trees) callee := by
  refine h.imp .inl fun n hn => ?_
  rw [Tree.numbers_cons]
  exact List.mem_append_right _ (List.mem_append_left _ hn)

/-- What can be called behind the first tree of a row is found in the row, or could be
called before it. -/
theorem Reaches.behind (h : t₁.Reaches trees callee)
    (hcalls : t₁.Calls callee →
      t.Reaches (.node operator nested alternatives fallback :: trees) callee) :
    t.Reaches (.node operator nested alternatives fallback :: trees) callee := by
  refine h.imp hcalls fun n hn => ?_
  rw [Tree.numbers_cons]
  exact List.mem_append_right _ (List.mem_append_right _ hn)

/-- A function can be called from its own body on. -/
theorem Reaches.named
    (h : (t.name place name t.functions.length).Calls callee) :
    t.Reaches (.node (place.operator name t.functions.length) nested alternatives fallback ::
      trees) callee := by
  rcases calls_name h with hold | hnew
  · exact .inl hold
  · refine .inr ⟨_, ?_, hnew⟩
    rw [Tree.numbers_cons, code?_operator]
    exact List.mem_append_left _ (List.mem_singleton_self _)

/-- Methods can be called behind their class. -/
theorem Reaches.ofClass {number : Nat} (h : (t.openClass name).Reaches nested callee) :
    t.Reaches (.node (.classDeclaration name number) nested [] none :: trees) callee := by
  have hmethods : t.Reaches nested callee :=
    h.imp (fun hopened => .inl (calls_openClass hopened)) (List.Subset.refl _)
  exact Reaches.inside (by rwa [Tree.nested_alone])

end

/-- What can be called behind trees could be called before, or is found in them. -/
theorem Enters.reaches {row : Option Place} {trees : List (Tree Operator)}
    (h : Enters row t trees t') (hcalls : t'.Calls callee) : t.Reaches trees callee := by
  induction h with
  | nothing => exact .inl hcalls
  | declaration mixed uses fresh rest ih =>
    exact (ih hcalls).behind fun hdeclared => .inl (calls_declare _ hdeclared)
  | plain mixed plain uses inside rest ih ih' =>
    exact (ih' hcalls).behind fun hinner => (ih hinner).inside
  | function hopen distinct inside rest _ ih =>
    rw [inside.leave] at ih
    exact (ih hcalls).behind .named
  | classDeclaration inside rest ih ih' =>
    exact (ih' hcalls).behind fun hinner => (ih hinner).ofClass

/-- What is called in trees can be called before them, or is found in them. -/
theorem Enters.uses {row : Option Place} {trees : List (Tree Operator)}
    (h : Enters row t trees t') {part : Tree Operator} (hpart : part ∈ Tree.all trees) :
    part.operator.Uses (fun _ => True) (t.Reaches trees) := by
  induction h with
  | nothing => cases hpart
  | declaration mixed uses fresh rest ih =>
    rcases Tree.mem_all_cons.mp hpart with rfl | hinside | hrest
    · exact uses.imp (fun _ h => h) fun _ => .inl
    · cases hinside
    · exact (ih hrest).imp (fun _ h => h) fun _ hcalls =>
        hcalls.behind fun hdeclared => .inl (calls_declare _ hdeclared)
  | plain mixed plain uses inside rest ih ih' =>
    rcases Tree.mem_all_cons.mp hpart with rfl | hinside | hrest
    · exact uses.imp (fun _ h => h) fun _ => .inl
    · exact (ih hinside).imp (fun _ h => h) fun _ => .inside
    · exact (ih' hrest).imp (fun _ h => h) fun _ hcalls =>
        hcalls.behind fun hinner => (inside.reaches hinner).inside
  | @function place t s nested t₁ trees t' hopen distinct inside rest _ ih =>
    rw [inside.leave] at ih
    rcases Tree.mem_all_cons.mp hpart with rfl | hinside | hrest
    · cases place <;> trivial
    · rw [Tree.nested_alone] at hinside
      exact ((inside.body rfl).2 part hinside).uses.imp (fun _ h => h) fun _ => .named
    · exact (ih hrest).imp (fun _ h => h) fun _ hcalls => hcalls.behind .named
  | classDeclaration inside rest ih ih' =>
    rcases Tree.mem_all_cons.mp hpart with rfl | hinside | hrest
    · trivial
    · rw [Tree.nested_alone] at hinside
      exact (ih hinside).imp (fun _ h => h) fun _ => .ofClass
    · exact (ih' hrest).imp (fun _ h => h) fun _ hcalls =>
        hcalls.behind fun hinner => (inside.reaches hinner).ofClass

/-! ## What classes have

The methods of a class are the functions nested in it, in their order. -/

/-- In the row of a class there are methods, and nothing else. -/
theorem Enters.methods {row : Option Place} {trees : List (Tree Operator)}
    (h : Enters row t trees t') {owner : String} {c : Nat}
    (hrow : row = some (.classOf owner c)) :
    (∃ entries : List (String × Nat),
      t'.classes = t.classes.modify c (fun ofClass =>
        { ofClass with methods := ofClass.methods.append entries }) ∧
      trees.map Tree.operator = entries.map fun entry => .method entry.1 entry.2) ∧
    ∀ part ∈ Tree.all trees, part.operator.class? = none := by
  induction h with
  | @nothing row t =>
    refine ⟨⟨[], ?_, rfl⟩, fun part hpart => absurd hpart List.not_mem_nil⟩
    simp only [Table.append_nil]
    exact (List.modify_id c t.classes).symm
  | declaration mixed =>
    rw [hrow] at mixed
    exact mixed.elim
  | plain mixed =>
    rw [hrow] at mixed
    exact mixed.elim
  | @function place t s nested t₁ trees t' module distinct inside rest _ ih =>
    cases hrow
    obtain ⟨⟨entries, hclasses, hoperators⟩, hnone⟩ := ih rfl
    rw [inside.leave] at hclasses
    refine ⟨⟨(s.name, t.functions.length) :: entries, ?_, ?_⟩, fun part hpart => ?_⟩
    · rw [hclasses]
      show (t.classes.modify c _).modify c _ = _
      simp only [List.modify_modify_eq, Function.comp_def, Table.append_append]
      rfl
    · rw [List.map_cons, List.map_cons, hoperators]
      rfl
    · rcases Tree.mem_all_cons.mp hpart with rfl | hinside | hrest
      · rfl
      · rw [Tree.nested_alone] at hinside
        exact ((inside.body rfl).2 part hinside).class_none
      · exact hnone part hrest
  | classDeclaration => cases hrow

/-- Behind a class its methods are known. -/
theorem Enters.ofClass {methods : List (Tree Operator)}
    (h : Enters (some (.classOf name t.classes.length)) (t.openClass name) methods t₁) :
    ∃ ofClass, t₁.classes = t.classes ++ [ofClass] ∧ ofClass.Records name methods := by
  obtain ⟨⟨entries, hclasses, hoperators⟩, -⟩ := h.methods rfl
  refine ⟨{ name, methods := ⟨.functionName, entries⟩ }, ?_, rfl, hoperators⟩
  rw [hclasses]
  exact Draft.modify_length t.classes { name := name } _

/-- A variable changes no class. -/
theorem classes_declare (entries : List (String × Variable)) :
    (t.declare entries).classes = t.classes := by
  unfold declare
  split <;> rfl

/-- Classes are numbered in the order of the source. -/
theorem Enters.classes {row : Option Place} {trees : List (Tree Operator)}
    (h : Enters row t trees t') (hrow : Mixed row) :
    Numbered t.classes (Tree.numbers Operator.class? trees) t'.classes := by
  induction h with
  | nothing => exact .same _
  | declaration mixed uses fresh rest ih =>
    have hrest := ih hrow
    rw [classes_declare] at hrest
    rw [Tree.leaf, Tree.numbers_cons]
    exact hrest
  | plain mixed plain uses inside rest ih ih' =>
    obtain ⟨-, -, -, hclass, -⟩ := plain.none
    rw [Tree.numbers_cons, hclass]
    exact (ih hrow).trans (ih' hrow)
  | @function place t s nested t₁ trees t' module distinct inside rest _ ih =>
    have hnested : Tree.numbers Operator.class? nested = [] :=
      Tree.numbers_eq_nil fun part hpart => ((inside.body rfl).2 part hpart).class_none
    rw [inside.leave] at ih
    cases place with
    | module =>
      rw [Tree.numbers_cons, Tree.nested_alone, hnested]
      exact ih hrow
    | classOf => exact hrow.elim
  | @classDeclaration t name methods t₁ trees t' inside rest ih ih' =>
    obtain ⟨ofClass, hclasses, -⟩ := inside.ofClass
    have hnested : Tree.numbers Operator.class? methods = [] :=
      Tree.numbers_eq_nil (inside.methods rfl).2
    have hrest := ih' hrow
    rw [hclasses] at hrest
    rw [Tree.numbers_cons, Tree.nested_alone, hnested]
    exact (Numbered.one t.classes ofClass).trans hrest

/-- Of each class in trees the tables say what there is in its row of methods. -/
theorem Enters.recordedClass {row : Option Place} {trees : List (Tree Operator)}
    (h : Enters row t trees t') (hrow : Mixed row) {part : Tree Operator}
    (hpart : part ∈ Tree.all trees) (hclass : part.operator.class? = some (name, n)) :
    ∃ ofClass, t'.classes[n]? = some ofClass ∧ ofClass.Records name part.nested := by
  induction h with
  | nothing => cases hpart
  | declaration mixed uses fresh rest ih =>
    rcases Tree.mem_all_cons.mp hpart with rfl | hinside | hrest
    · cases hclass
    · cases hinside
    · exact ih hrow hrest
  | plain mixed plain uses inside rest ih ih' =>
    rcases Tree.mem_all_cons.mp hpart with rfl | hinside | hrest
    · obtain ⟨-, -, -, hnone, -⟩ := plain.none
      exact absurd (hnone.symm.trans hclass) nofun
    · obtain ⟨ofClass, hfound, hrecords⟩ := ih hrow hinside
      exact ⟨ofClass, (rest.classes hrow).getElem? hfound, hrecords⟩
    · exact ih' hrow hrest
  | @function place t s nested t₁ trees t' module distinct inside rest _ ih =>
    rcases Tree.mem_all_cons.mp hpart with rfl | hinside | hrest
    · cases place <;> cases hclass
    · rw [Tree.nested_alone] at hinside
      have hnone := ((inside.body rfl).2 part hinside).class_none
      exact absurd (hnone.symm.trans hclass) nofun
    · exact ih hrow hrest
  | @classDeclaration t name methods t₁ trees t' inside rest ih ih' =>
    rcases Tree.mem_all_cons.mp hpart with rfl | hinside | hrest
    · cases hclass
      obtain ⟨ofClass, hclasses, hrecords⟩ := inside.ofClass
      have hfound : t₁.classes[t.classes.length]? = some ofClass := by
        rw [hclasses]
        exact List.getElem?_concat_length
      exact ⟨ofClass, (rest.classes hrow).getElem? hfound, hrecords⟩
    · rw [Tree.nested_alone] at hinside
      have hnone := (inside.methods rfl).2 part hinside
      exact absurd (hnone.symm.trans hclass) nofun
    · exact ih' hrow hrest

/-! ## Whole modules

One module after another is entered, and none is entered into again. -/

/-- What tables are with more modules. -/
structure Grows (t : Tables) (trees : List (Tree Operator)) (t' : Tables) : Prop where
  function : t'.function = none
  modules : Numbered t.modules (List.range' t.modules.length trees.length) t'.modules
  functions : Numbered t.functions (Tree.numbers Operator.code? trees) t'.functions
  classes : Numbered t.classes (Tree.numbers Operator.class? trees) t'.classes

/-- A module has what there is in its trees. -/
theorem Enters.modules {nested : List (Tree Operator)}
    (h : Enters (some .module) (t.openModule name) nested t₁) (hfunction : t.function = none) :
    t₁.modules = t.modules ++ [grown nested { name := name }] := by
  rw [(h.changed hfunction).modules]
  exact Draft.modify_length t.modules { name := name } (grown nested)

/-- Modules are numbered in the order of the source. -/
theorem EntersModules.grows {trees : List (Tree Operator)} (h : EntersModules t trees t')
    (hfunction : t.function = none) : t.Grows trees t' := by
  induction h with
  | nothing => exact ⟨hfunction, .same _, .same _, .same _⟩
  | @module t name nested t₁ trees t' inside rest ih =>
    have hrest := ih (inside.changed hfunction).function
    refine ⟨hrest.function, ?_, ?_, ?_⟩
    · have hmodules := Numbered.one t.modules (grown nested { name := name })
      rw [← inside.modules hfunction] at hmodules
      have hlength : t₁.modules.length = t.modules.length + 1 := by
        rw [inside.modules hfunction, List.length_append, List.length_singleton]
      rw [List.length_cons, List.range'_succ, ← hlength]
      exact hmodules.trans hrest.modules
    · rw [Tree.numbers_cons, Tree.nested_alone]
      exact (inside.functions hfunction).trans hrest.functions
    · rw [Tree.numbers_cons, Tree.nested_alone]
      exact (inside.classes trivial).trans hrest.classes

/-- A module begins with nothing to call. -/
theorem not_calls_openModule : ¬ (t.openModule name).Calls callee := by
  rintro ⟨n, m, -, hm, hcalled⟩
  have hopen : (t.openModule name).openModule? = some { name := name } :=
    List.getElem?_concat_length
  cases hopen.symm.trans hm
  rcases hcalled with hfunction | ⟨c, ofClass, hclass, -⟩
  · cases hfunction
  · cases hclass

/-- A program that has what tables have. -/
structure Within (t : Tables) (p : Program) : Prop where
  modules : ∀ (k : Nat) m, t.modules[k]? = some m → p.modules[k]? = some m
  functions : ∀ (n : Nat) s vars, t.functions[n]? = some (s, vars) →
    ∃ f, p.functions[n]? = some f ∧ f.signature = s ∧ f.vars = vars
  classes : ∀ (c : Nat) ofClass, t.classes[c]? = some ofClass → p.classes[c]? = some ofClass

/-- The tables at an earlier point are those of the program, too, as far as they go. -/
theorem Within.before {p : Program} {trees : List (Tree Operator)} (h : t'.Within p)
    (hgrows : t.Grows trees t') : t.Within p :=
  ⟨fun k m hm => h.modules k m (hgrows.modules.getElem? hm),
    fun n s vars hf => h.functions n s vars (hgrows.functions.getElem? hf),
    fun c ofClass hc => h.classes c ofClass (hgrows.classes.getElem? hc)⟩

/-- The tables of one module, when the next one begins or the source ends. -/
theorem Enters.records {p : Program} {nested : List (Tree Operator)}
    (h : Enters (some .module) (t.openModule name) nested t₁) (hfunction : t.function = none)
    (hwithin : t₁.Within p) : p.Records (grown nested { name := name }) nested := by
  have hopen : (t.openModule name).openModule? = some { name := name } :=
    List.getElem?_concat_length
  refine ⟨rfl, ?_, rfl, rfl, ?_, ?_, ?_⟩
  · have hchanged := h.changed hfunction
    have hvars : t₁.vars = (grown nested { name := name }).vars.entries := by
      refine vars_module hchanged.function ?_
      rw [hchanged.openModule?, hopen, Option.map_some]
    rw [← hvars]
    refine h.distinct (.inr hfunction) ?_
    rw [vars_module (t := t.openModule name) hfunction hopen]
    exact List.nodup_nil
  · intro part hpart name c hclass
    obtain ⟨ofClass, hfound, hrecords⟩ := h.recordedClass trivial hpart hclass
    exact ⟨ofClass, hwithin.classes c ofClass hfound, hrecords⟩
  · intro part hpart name n hcode
    obtain ⟨s, vars, hfound, hrecorded⟩ :=
      h.recorded hfunction (by rw [hopen, Option.map_some]) hpart hcode
    obtain ⟨f, hf, rfl, rfl⟩ := hwithin.functions n s vars hfound
    exact ⟨f, hf, hrecorded⟩
  · -- Nothing could be called before, so the second case is left.
    intro part hpart
    refine (h.uses hpart).imp (fun _ h => h) fun callee hcalls => ?_
    rcases hcalls with hbefore | ⟨n, hn, rfl⟩
    · exact absurd hbefore not_calls_openModule
    · obtain ⟨called, hcalled, name, hcode⟩ := Tree.mem_numbers.mp hn
      exact ⟨called, hcalled, name, n, hcode, rfl⟩

/-- The tables of every module, when its trees have been entered. -/
theorem EntersModules.records {p : Program} {trees : List (Tree Operator)}
    (h : EntersModules t trees t') (hfunction : t.function = none) (hwithin : t'.Within p)
    {i : Nat} {tree : Tree Operator} (htree : trees[i]? = some tree) :
    ∃ m nested, p.modules[t.modules.length + i]? = some m ∧
      tree = .node (.module m.name (t.modules.length + i)) nested [] none ∧
      p.Records m nested := by
  induction h generalizing i with
  | nothing => cases htree
  | @module t name nested t₁ trees t' inside rest ih =>
    have hchanged := inside.changed hfunction
    have hmodules := inside.modules hfunction
    have hwithin₁ := hwithin.before (rest.grows hchanged.function)
    cases i with
    | zero =>
      cases htree
      refine ⟨grown nested { name := name }, nested, hwithin₁.modules _ _ ?_, rfl,
        inside.records hfunction hwithin₁⟩
      rw [hmodules]
      exact List.getElem?_concat_length
    | succ i =>
      obtain ⟨m, nested, hfound, htree, hrecords⟩ := ih hchanged.function hwithin htree
      have hlength : t₁.modules.length + i = t.modules.length + (i + 1) := by
        rw [hmodules, List.length_append, List.length_singleton]
        omega
      rw [hlength] at hfound htree
      exact ⟨m, nested, hfound, htree, hrecords⟩

end Tables

/-- The tables of a draft are those of its program. -/
theorem Draft.tables_within (d : Draft) : d.tables.Within d.program where
  modules := fun k m hm => by simpa [Draft.tables] using hm
  functions := fun n s vars hf => by simpa [Draft.tables] using hf
  classes := fun c ofClass hc => by simpa [Draft.tables] using hc

/-- The tables of a program say what there is in its trees: there is a table for each
root, and the functions and classes of the program are those that are found. -/
structure Program.Matches (p : Program) (trees : List (Tree Operator)) : Prop where
  shown : ∃ used, p.forest.Shows (.each p.forest.roots) trees used
  modules : trees.length = p.modules.size
  functions : Tree.numbers Operator.code? trees = List.range p.functions.size
  classes : Tree.numbers Operator.class? trees = List.range p.classes.size
  records : ∀ (k : Nat) tree, trees[k]? = some tree → ∃ m nested, p.modules[k]? = some m ∧
    tree = .node (.module m.name k) nested [] none ∧ p.Records m nested

/-- Whatever the tokens are, the tables of the program that is built match the trees that
its forest shows. -/
theorem Program.tables_match {tokens : List Token} {p : Program}
    (h : ofTokens tokens = .ok p) : ∃ trees, p.Matches trees := by
  obtain ⟨d, items, Γ, rfl, -, hbuilt⟩ := ofTokens_built h
  obtain ⟨used, hshows, -⟩ := hbuilt.shown
  have hgrows := hbuilt.tables.grows rfl
  refine ⟨_, ⟨used, hshows⟩, ?_, ?_, ?_, fun k tree htree => ?_⟩
  · have hrange := congrArg List.length hgrows.modules.range
    rwa [List.length_range', List.length_range] at hrange
  · rw [hgrows.functions.range]
    show List.range (d.program.functions.toList.map _).length = _
    rw [List.length_map, Array.length_toList]
  · rw [hgrows.classes.range]
    rfl
  · have hrecords := hbuilt.tables.records rfl d.tables_within htree
    rwa [List.length_nil, Nat.zero_add] at hrecords

/-- Two modules; the first has a function, a class and a loop, which declare variables and
call each other. -/
def twoModules : List Token :=
  let of := Token.ofKind
  let word := fun text : String => (⟨.word, text, 0, 0⟩ : Token)
  [of .moduleWord, word "a", of .semicolon,
    of .variableWord, of .minus, word "int", word "x", of .semicolon,
    of .functionWord, word "f", of .leftParen, word "int", word "p", of .rightParen,
    of .colon, word "int",
    of .variableWord, of .minus, word "int", word "q", of .assign, word "f", of .leftParen,
    word "p", of .rightParen, of .semicolon,
    of .returnWord, word "q", of .semicolon, of .endWord, word "f", of .dot,
    of .classWord, word "C", of .methodWord, word "g", of .leftParen, of .rightParen,
    of .colon, word "int", of .returnWord, word "f", of .leftParen, word "x", of .rightParen,
    of .semicolon, of .endWord, word "g", of .dot, of .endWord, word "C", of .dot,
    of .beginWord, of .whileWord, of .trueWord, of .thenWord,
    of .variableWord, of .minus, word "int", word "y", of .assign, word "C", of .dot, word "g",
    of .leftParen, of .rightParen, of .semicolon, of .endWord, of .whileWord, of .dot,
    of .moduleWord, word "b", of .semicolon,
    of .variableWord, of .minus, word "int", word "x", of .semicolon]

/-- Two modules declare the same name, a function and a class with a method: each table
has what stands in its own trees. -/
theorem Program.twoModules_match : ∃ p, ofTokens twoModules = .ok p ∧
    p.modules.toList.map (fun m =>
        (m.name, m.vars.names, m.functions.entries, m.classes.entries)) =
      [("a", ["x", "y"], [("f", 0)], [("C", 0)]), ("b", ["x"], [], [])] ∧
    p.functions.toList.map (fun f => (f.name, f.module, f.vars.names)) =
      [("f", "a", ["p", "q"]), ("g", "a", [])] ∧
    ∃ trees, p.Matches trees := by
  have hbuilt : (ofTokens twoModules).toOption.any (fun p =>
      decide (p.modules.toList.map (fun m =>
          (m.name, m.vars.names, m.functions.entries, m.classes.entries)) =
        [("a", ["x", "y"], [("f", 0)], [("C", 0)]), ("b", ["x"], [], [])]) &&
      decide (p.functions.toList.map (fun f => (f.name, f.module, f.vars.names)) =
        [("f", "a", ["p", "q"]), ("g", "a", [])])) = true := by
    decide +kernel
  obtain ⟨p, hp, hnames⟩ := exists_ok _ hbuilt
  rw [Bool.and_eq_true, decide_eq_true_eq, decide_eq_true_eq] at hnames
  exact ⟨p, hp, hnames.1, hnames.2, tables_match hp⟩

end Pseudocode
