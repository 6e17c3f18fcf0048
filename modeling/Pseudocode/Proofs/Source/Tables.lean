import Pseudocode.Proofs.Source.Agreement

/-!
# What trees enter into tables

The tables of a program are filled while its tokens are read; its trees are put
together from the inside out, behind that.  `Tables.Enters` tells what the tables come
to from the trees alone, taken in the order of the source: a declaration goes into the
table of the code that it stands in, a function into its module's table or that of its
class, where it is known before its body is; names are new, and calls are of functions
that the tables have by then.  `Tables.EntersModules` goes on to whole modules.

The parameters of a function are the one thing that the trees do not tell.

Each step of the builder that fills a table is an operation on `Tables`
(`Draft.declareVariable_tables` and the like), and all other steps leave them alone.
-/

namespace Pseudocode

open Source

/-- A table with more entries. -/
def Table.append {α : Type} (t : Table α) (entries : List (String × α)) : Table α :=
  { t with entries := t.entries ++ entries }

/-- No entries more. -/
theorem Table.append_nil {α : Type} (t : Table α) : t.append [] = t := by
  unfold append
  rw [List.append_nil]

/-- Entries behind entries are added at once or one after the other. -/
theorem Table.append_append {α : Type} (t : Table α) (entries more : List (String × α)) :
    (t.append entries).append more = t.append (entries ++ more) := by
  unfold append
  rw [List.append_assoc]

/-- What a program declares, with the module and the function that are open.  Of a
function there are the header and the variables. -/
structure Tables where
  modules : List ModuleDeclaration := []
  functions : List (Signature × Variables) := []
  classes : List ClassDeclaration := []
  module : Option Nat := none
  function : Option Nat := none

/-- The variables that parameters are. -/
def Source.Signature.entries (s : Signature) : List (String × Variable) :=
  s.parameters.map fun q => (q.name, ⟨q.type, none⟩)

namespace Tables

/-- The module that is open. -/
def openModule? (t : Tables) : Option ModuleDeclaration :=
  t.module.bind fun k => t.modules[k]?

/-- The variables of the open function, or else of the open module. -/
def vars (t : Tables) : List (String × Variable) :=
  match t.function with
  | some n => ((t.functions[n]?).map fun f => f.2.entries).getD []
  | none => (t.openModule?.map fun m => m.vars.entries).getD []

/-- Other tables for the open module. -/
def changeModule (t : Tables) (change : ModuleDeclaration → ModuleDeclaration) : Tables :=
  { t with modules := match t.module with
      | none => t.modules
      | some k => t.modules.modify k change }

/-- Behind the declaration of variables. -/
def declare (t : Tables) (entries : List (String × Variable)) : Tables :=
  match t.function with
  | some n => { t with functions := t.functions.modify n fun f => (f.1, f.2.append entries) }
  | none => t.changeModule fun m => { m with vars := m.vars.append entries }

section

variable {t : Tables} {n : Nat}

/-- In a function, declarations are the function's. -/
theorem declare_function (h : t.function = some n) (entries : List (String × Variable)) :
    t.declare entries =
      { t with functions := t.functions.modify n fun f => (f.1, f.2.append entries) } := by
  unfold declare
  split <;> simp_all

/-- Outside of functions, declarations are the module's. -/
theorem declare_module (h : t.function = none) (entries : List (String × Variable)) :
    t.declare entries = t.changeModule fun m => { m with vars := m.vars.append entries } := by
  unfold declare
  rw [h]

/-- A module that is changed into itself is not changed. -/
theorem changeModule_id (t : Tables) : t.changeModule (fun m => m) = t := by
  have hsame : (match t.module with
      | none => t.modules
      | some k => t.modules.modify k fun m => m) = t.modules := by
    cases t.module with
    | none => rfl
    | some k => exact List.modify_id k t.modules
  exact congrArg (fun modules => { t with modules }) hsame

/-- Two changes of the open module are one. -/
theorem changeModule_changeModule (t : Tables)
    (change change' : ModuleDeclaration → ModuleDeclaration) :
    (t.changeModule change).changeModule change' =
      t.changeModule fun m => change' (change m) := by
  unfold changeModule
  cases t.module with
  | none => rfl
  | some k => simp only [List.modify_modify_eq, Function.comp_def]

/-- To declare nothing changes nothing. -/
theorem declare_nil (t : Tables) : t.declare [] = t := by
  cases h : t.function with
  | some n =>
    rw [declare_function h]
    simp only [Table.append_nil]
    exact congrArg (fun functions => { t with functions }) (List.modify_id n t.functions)
  | none =>
    rw [declare_module h]
    simp only [Table.append_nil]
    exact changeModule_id t

/-- Declarations add up. -/
theorem declare_declare (t : Tables) (entries more : List (String × Variable)) :
    (t.declare entries).declare more = t.declare (entries ++ more) := by
  cases h : t.function with
  | some n =>
    have hopen : (t.declare entries).function = some n := by
      rw [declare_function h]
      exact h
    rw [declare_function hopen, declare_function h entries, declare_function h]
    simp only [List.modify_modify_eq, Function.comp_def, Table.append_append]
  | none =>
    have hopen : (t.declare entries).function = none := by
      rw [declare_module h]
      exact h
    rw [declare_module hopen, declare_module h entries, declare_module h,
      changeModule_changeModule]
    simp only [Table.append_append]

/-- The variables of the code in a function are those of the function. -/
theorem vars_function {f : Signature × Variables} (h : t.function = some n)
    (hf : t.functions[n]? = some f) : t.vars = f.2.entries := by
  unfold vars
  rw [h]
  dsimp only
  rw [hf]
  rfl

/-- The variables of the code outside of functions are those of the module. -/
theorem vars_module {m : ModuleDeclaration} (h : t.function = none)
    (hm : t.openModule? = some m) : t.vars = m.vars.entries := by
  unfold vars
  rw [h, hm]
  rfl

end

/-- With one more name in the table that the functions of a place are in. -/
def name (t : Tables) (place : Place) (name : String) (number : Nat) : Tables :=
  match place with
  | .module =>
    t.changeModule fun m => { m with functions := m.functions.append [(name, number)] }
  | .classOf _ c =>
    { t with classes := t.classes.modify c fun ofClass =>
        { ofClass with methods := ofClass.methods.append [(name, number)] } }

/-- Behind the header of a function, which is open and has its parameters. -/
def enter (t : Tables) (place : Place) (s : Signature) : Tables :=
  { t.name place s.name t.functions.length with
    functions := t.functions ++ [(s, ⟨.variableName, s.entries⟩)]
    function := some t.functions.length }

/-- Behind the end of a function. -/
def leave (t : Tables) : Tables := { t with function := none }

/-- Behind the name of a class. -/
def openClass (t : Tables) (name : String) : Tables :=
  { t.changeModule fun m =>
      { m with classes := m.classes.append [(name, t.classes.length)] } with
    classes := t.classes ++ [{ name := name }] }

/-- Behind the header of a module. -/
def openModule (t : Tables) (name : String) : Tables :=
  { t with modules := t.modules ++ [{ name := name }], module := some t.modules.length }

/-- What can be called: the functions of the open module, and the methods of its
classes. -/
def Calls (t : Tables) (callee : Callee) : Prop :=
  ∃ n m, callee = .declared n ∧ t.openModule? = some m ∧
    (n ∈ m.functions.entries.map Prod.snd ∨
      ∃ c ofClass, c ∈ m.classes.entries.map Prod.snd ∧ t.classes[c]? = some ofClass ∧
        n ∈ ofClass.methods.entries.map Prod.snd)

end Tables

/-- The operators that declare nothing. -/
def Operator.Plain : Operator → Prop
  | .module .. | .declaration .. | .function .. | .method .. | .classDeclaration .. => False
  | _ => True

/-- Whether statements can stand in a row: in a body and in a module they can, among the
methods of a class they cannot. -/
def Source.Mixed : Option Place → Prop
  | some (.classOf ..) => False
  | _ => True

namespace Tables

/-- What the tables are behind a row of trees: behind the statements of a body, or behind
the functions and other items of a place. -/
inductive Enters : Option Place → Tables → List (Tree Operator) → Tables → Prop where
  | nothing {row t} : Enters row t [] t
  | declaration {row t type name initial trees t'} (mixed : Mixed row)
      (uses : (Operator.declaration type name initial).Uses (fun _ => True) t.Calls)
      (fresh : name ∉ t.vars.map Prod.fst)
      (rest : Enters row (t.declare [(name, ⟨type, initial.map .deferred⟩)]) trees t') :
      Enters row t (.leaf (.declaration type name initial) :: trees) t'
  | plain {row t operator nested alternatives fallback t₁ trees t'} (mixed : Mixed row)
      (plain : operator.Plain) (uses : operator.Uses (fun _ => True) t.Calls)
      (inside : Enters row t (nested ++ alternatives ++ Option.toList fallback) t₁)
      (rest : Enters row t₁ trees t') :
      Enters row t (.node operator nested alternatives fallback :: trees) t'
  | function {place t s nested t₁ trees t'}
      (module : t.openModule?.map ModuleDeclaration.name = some s.module)
      (distinct : (s.parameters.map Parameter.name).Nodup)
      (inside : Enters none (t.enter place s) nested t₁)
      (rest : Enters (some place) t₁.leave trees t') :
      Enters (some place) t
        (.node (place.operator s.name t.functions.length) nested [] none :: trees) t'
  | classDeclaration {t name methods t₁ trees t'}
      (inside : Enters (some (.classOf name t.classes.length)) (t.openClass name) methods t₁)
      (rest : Enters (some .module) t₁ trees t') :
      Enters (some .module) t
        (.node (.classDeclaration name t.classes.length) methods [] none :: trees) t'

/-- What the tables are behind modules. -/
inductive EntersModules : Tables → List (Tree Operator) → Tables → Prop where
  | nothing {t} : EntersModules t [] t
  | module {t name nested t₁ trees t'}
      (inside : Enters (some .module) (t.openModule name) nested t₁)
      (rest : EntersModules t₁ trees t') :
      EntersModules t (.node (.module name t.modules.length) nested [] none :: trees) t'

namespace Enters

variable {row : Option Place} {t t₁ t' : Tables} {trees more : List (Tree Operator)}

/-- What is entered by some trees, and then by others, is entered by all of them. -/
theorem append (h : Enters row t trees t₁) (h' : Enters row t₁ more t') :
    Enters row t (trees ++ more) t' := by
  induction h with
  | nothing => exact h'
  | declaration mixed uses fresh _ ih => exact .declaration mixed uses fresh (ih h')
  | plain mixed plain uses inside _ _ ih => exact .plain mixed plain uses inside (ih h')
  | function module distinct inside _ _ ih => exact .function module distinct inside (ih h')
  | classDeclaration inside _ _ ih => exact .classDeclaration inside (ih h')

/-- Statements can also stand in a module. -/
theorem items (h : Enters row t trees t') (hrow : row = none) :
    Enters (some .module) t trees t' := by
  induction h with
  | nothing => exact .nothing
  | declaration _ uses fresh _ ih => exact .declaration trivial uses fresh (ih hrow)
  | plain _ plain uses _ _ ih ih' => exact .plain trivial plain uses (ih hrow) (ih' hrow)
  | function => cases hrow
  | classDeclaration => cases hrow

/-- An operator that declares nothing enters what is nested in it. -/
theorem around {operator : Operator} (mixed : Mixed row) (plain : operator.Plain)
    (uses : operator.Uses (fun _ => True) t.Calls) (h : Enters row t trees t') :
    Enters row t [.node operator trees [] none] t' :=
  .plain mixed plain uses (by simpa using h) .nothing

/-- What stands behind a `begin` may as well be nested in it. -/
theorem behind_beginning (h : Enters (some .module) t [.leaf .beginning] t₁)
    (h' : Enters (some .module) t₁ trees t') :
    Enters (some .module) t [.node .beginning trees [] none] t' := by
  have hsame : t₁ = t := by
    generalize hrow : [Tree.leaf Operator.beginning] = behind at h
    cases h with
    | nothing => rfl
    | declaration => simp [Tree.leaf] at hrow
    | plain _ _ _ inside rest =>
      obtain ⟨⟨rfl, rfl, rfl, rfl⟩, rfl⟩ := by simpa [Tree.leaf] using hrow
      cases inside
      cases rest
      rfl
    | function => simp [Tree.leaf, Place.operator] at hrow
    | classDeclaration => simp [Tree.leaf] at hrow
  exact .around trivial trivial trivial (hsame ▸ h')

end Enters

end Tables

/-! ## The tables of a draft -/

namespace Draft

variable {d d' : Draft} {Γ : Context}

/-- The tables of a draft. -/
def tables (d : Draft) : Tables where
  modules := d.program.modules.toList
  functions := d.program.functions.toList.map fun f => (f.signature, f.vars)
  classes := d.program.classes.toList
  module := d.module
  function := d.function

/-- The tables and the draft have the same module open. -/
theorem openModule?_tables (d : Draft) : d.tables.openModule? = d.openModule? := by
  unfold Tables.openModule? openModule? tables
  simp

/-- The last of some items is the one behind all others. -/
theorem modify_length {α : Type} (items : List α) (a : α) (change : α → α) :
    (items ++ [a]).modify items.length change = items ++ [change a] := by
  simp [List.modify_eq_take_drop]

/-- An item that is replaced by what it is changed to. -/
theorem set_eq_modify {α : Type} {items : List α} {i : Nat} {a : α}
    (h : items[i]? = some a) (change : α → α) :
    items.set i (change a) = items.modify i change := by
  have : Inhabited α := ⟨a⟩
  rw [List.modify_eq_set, h, Option.getD_some]

/-- What a table has under a name is one of its entries. -/
theorem mem_of_find? {α : Type} {table : Table α} {name : String} {item : α}
    (h : table.find? name = some item) : item ∈ table.entries.map Prod.snd := by
  obtain ⟨before, after, hsplit, -⟩ := List.lookup_eq_some_iff.mp h
  rw [hsplit]
  simp

/-- An expression calls what the tables have. -/
theorem Agrees.uses (h : d.Agrees Γ) (hopen : Γ.modules ≠ []) {tier : Grammar.Tier}
    {ts : List Token} {e : Expr} (hderives : Grammar.Derives Γ.names Grammar.Reads tier ts e) :
    e.Uses (fun _ => True) d.tables.Calls := by
  obtain ⟨m, hmodule, hfound, hopened, -⟩ := h.openModule hopen
  rw [← openModule?_tables] at hopened
  rw [← h.names hopen] at hderives
  refine hderives.uses.imp (fun _ _ => trivial) ?_
  rintro callee (⟨name, hcallee⟩ | ⟨owner, name, hcallee⟩)
  · simp only [Draft.names, hmodule] at hcallee
    obtain ⟨m', n, hm', hn, rfl⟩ := Program.findFunction_ok.mp hcallee
    cases hfound.symm.trans hm'
    exact ⟨n, m, rfl, hopened, .inl (mem_of_find? hn)⟩
  · simp only [Draft.names, hmodule] at hcallee
    obtain ⟨m', c, ofClass, n, hm', hc, hclass, hn, rfl⟩ := Program.findMethod_ok.mp hcallee
    cases hfound.symm.trans hm'
    have hclass' : d.tables.classes[c]? = some ofClass := by
      simp [Draft.tables, hclass]
    exact ⟨n, m, rfl, hopened, .inr ⟨c, ofClass, mem_of_find? hc, hclass', mem_of_find? hn⟩⟩

/-- A change to the open module's declaration is a change to its tables. -/
theorem tables_setModule {k : Nat} {m : ModuleDeclaration} (hmodule : d.module = some k)
    (hm : d.program.modules[k]? = some m) (change : ModuleDeclaration → ModuleDeclaration) :
    (d.setModule k (change m)).tables = d.tables.changeModule change := by
  have hlist : (d.program.modules.setIfInBounds k (change m)).toList =
      d.program.modules.toList.modify k change := by
    rw [Array.toList_setIfInBounds]
    exact set_eq_modify (by rw [Array.getElem?_toList, hm]) change
  have hchange : (d.tables.changeModule change).modules =
      d.program.modules.toList.modify k change := by
    unfold Tables.changeModule
    rw [show d.tables.module = some k from hmodule]
    rfl
  exact congrArg (fun modules => { d.tables with modules }) (hlist.trans hchange.symm)

/-- A change to a class's declaration is a change to its table. -/
theorem tables_setClass {c : Nat} {ofClass : ClassDeclaration}
    (hc : d.program.classes[c]? = some ofClass)
    (change : ClassDeclaration → ClassDeclaration) :
    (d.setClass c (change ofClass)).tables =
      { d.tables with classes := d.tables.classes.modify c change } := by
  have hlist : (d.program.classes.setIfInBounds c (change ofClass)).toList =
      d.program.classes.toList.modify c change := by
    rw [Array.toList_setIfInBounds]
    exact set_eq_modify (by rw [Array.getElem?_toList, hc]) change
  exact congrArg (fun classes => { d.tables with classes }) hlist

/-- A change to a function's declaration is a change to what the tables have of it. -/
theorem tables_setFunction {n : Nat} {f : FunctionDeclaration}
    (hf : d.program.functions[n]? = some f) (f' : FunctionDeclaration)
    (change : Signature × Variables → Signature × Variables)
    (hchange : (f'.signature, f'.vars) = change (f.signature, f.vars)) :
    (d.setFunction n f').tables =
      { d.tables with functions := d.tables.functions.modify n change } := by
  have hfound : d.tables.functions[n]? = some (f.signature, f.vars) := by
    simp [tables, hf]
  have hlist : (d.setFunction n f').tables.functions = d.tables.functions.modify n change := by
    rw [← set_eq_modify hfound, ← hchange]
    simp [tables, setFunction, List.map_set]
  exact congrArg (fun functions => { d.tables with functions }) hlist

/-- A variable that was declared is in the tables, where it is new. -/
theorem declareVariable_tables {name : String} {v : Variable}
    (h : d.declareVariable name v = .ok d') :
    d'.tables = d.tables.declare [(name, v)] ∧ name ∉ d.tables.vars.map Prod.fst := by
  have hnew : ∀ {vars vars' : Variables}, vars.declare name v = .ok vars' →
      name ∉ vars.entries.map Prod.fst ∧ vars' = vars.append [(name, v)] := by
    intro vars vars' hdeclare
    obtain ⟨hhas, rfl⟩ := Table.declare_ok hdeclare
    exact ⟨fun hmem => absurd (Table.has_iff_mem_names.mpr hmem) (by simp [hhas]), rfl⟩
  cases hfunction : d.function with
  | some n =>
    cases hf : d.program.functions[n]? with
    | none => simp [declareVariable, hfunction, hf] at h
    | some f =>
      obtain ⟨vars, hvars, rfl⟩ := declareVariable_function hfunction hf h
      obtain ⟨hfresh, rfl⟩ := hnew hvars
      have hopen : d.tables.function = some n := hfunction
      have hfound : d.tables.functions[n]? = some (f.signature, f.vars) := by
        simp [tables, hf]
      rw [Tables.declare_function hopen, Tables.vars_function hopen hfound]
      exact ⟨tables_setFunction hf _ (fun f => (f.1, f.2.append [(name, v)])) rfl, hfresh⟩
  | none =>
    have hopen : d.tables.function = none := hfunction
    unfold declareVariable at h
    rw [hfunction] at h
    cases hmodule : d.module with
    | none => simp [hmodule] at h
    | some k =>
      cases hm : d.program.modules[k]? with
      | none => simp [openModule?, hmodule, hm] at h
      | some m =>
        have hopened : d.openModule? = some m := by simp [openModule?, hmodule, hm]
        simp only [hmodule, hopened] at h
        cases hvars : m.vars.declare name v with
        | error fault => simp [hvars, bind, Except.bind] at h
        | ok vars =>
          rw [hvars] at h
          cases h
          obtain ⟨hfresh, rfl⟩ := hnew hvars
          rw [Tables.declare_module hopen,
            Tables.vars_module hopen ((openModule?_tables d).trans hopened)]
          exact ⟨tables_setModule hmodule hm
            fun m => { m with vars := m.vars.append [(name, v)] }, hfresh⟩

/-- Parameters that were declared are in the tables. -/
theorem declareParameters_tables : ∀ {parameters : List Parameter} {d : Draft},
    Builder.declareParameters parameters d = .ok ((), d') →
    d'.tables = d.tables.declare (parameters.map fun q => (q.name, ⟨q.type, none⟩))
  | [], d, h => by
    cases pure_ok.mp h
    exact (Tables.declare_nil _).symm
  | q :: parameters, d, h => by
    unfold Builder.declareParameters at h
    simp only [bind_ok, get_ok, lift_ok, set_ok] at h
    obtain ⟨d₁, d₂, hget, d₃, d₄, ⟨hdeclare, rfl⟩, _, d₅, hset, h⟩ := h
    cases hget
    cases hset
    rw [declareParameters_tables h, (declareVariable_tables hdeclare).1,
      Tables.declare_declare]
    rfl

/-- A function that was declared is in the table of its place, and behind the others. -/
theorem declareFunction_tables {place : Place} {f : FunctionDeclaration} {n : Nat}
    (hmodule : d.module = some (Γ.modules.length - 1))
    (h : Builder.declareFunction (place.entry Γ) f d = .ok (n, d')) :
    d'.tables = { d.tables.name place f.name d.tables.functions.length with
      functions := d.tables.functions ++ [(f.signature, f.vars)] } := by
  have hsize : d.tables.functions.length = d.program.functions.size := by simp [tables]
  have hpush : ∀ {t : Tables} (d₁ : Draft), d₁.tables = t →
      d₁.program.functions = d.program.functions → (d₁.pushFunction f).tables =
        { t with functions := d.tables.functions ++ [(f.signature, f.vars)] } := by
    rintro _ d₁ rfl hsame
    simp [tables, pushFunction, hsame]
  rw [hsize]
  unfold Builder.declareFunction at h
  obtain ⟨d₁, d₂, hget, h⟩ := bind_ok.mp h
  cases get_ok.mp hget
  cases place with
  | module =>
    cases hm : d.program.modules[Γ.modules.length - 1]? with
    | none =>
      simp only [Place.entry, hm, bind_ok, throw_ok] at h
      obtain ⟨_, _, hfalse, -⟩ := h
      exact hfalse.elim
    | some m =>
      simp only [Place.entry, hm, bind_ok, lift_ok, set_ok, modify_ok, pure_ok] at h
      obtain ⟨functions, d₃, ⟨hdeclare, rfl⟩, _, d₄, hset, _, d₅, hmodify, hlast⟩ := h
      obtain ⟨-, rfl⟩ := Table.declare_ok hdeclare
      cases hset
      cases hmodify
      cases hlast
      exact hpush _ (tables_setModule hmodule hm fun m =>
        { m with functions := m.functions.append [(f.name, _)] }) rfl
  | classOf name c =>
    cases hc : d.program.classes[c]? with
    | none =>
      simp only [Place.entry, hc, bind_ok, throw_ok] at h
      obtain ⟨_, _, hfalse, -⟩ := h
      exact hfalse.elim
    | some ofClass =>
      simp only [Place.entry, hc, bind_ok, lift_ok, set_ok, modify_ok, pure_ok] at h
      obtain ⟨methods, d₃, ⟨hdeclare, rfl⟩, _, d₄, hset, _, d₅, hmodify, hlast⟩ := h
      obtain ⟨-, rfl⟩ := Table.declare_ok hdeclare
      cases hset
      cases hmodify
      cases hlast
      exact hpush _ (tables_setClass hc fun ofClass =>
        { ofClass with methods :=
            ofClass.methods.append [(f.name, _)] }) rfl

/-- A function behind its header is open and has its parameters. -/
theorem enter_tables {place : Place} {f : FunctionDeclaration} {d₁ d₂ : Draft}
    (hmodule : d.module = some (Γ.modules.length - 1)) (hvars : f.vars = Variables.empty)
    (hdeclare : Builder.declareFunction (place.entry Γ) f d =
      .ok (d.tables.functions.length, d₁))
    (hparameters : Builder.declareParameters f.parameters
      { d₁ with function := some d.tables.functions.length } = .ok ((), d₂)) :
    d₂.tables = d.tables.enter place f.signature := by
  have htables := declareFunction_tables hmodule hdeclare
  have hopened : Draft.tables { d₁ with function := some d.tables.functions.length } =
      { d₁.tables with function := some d.tables.functions.length } := rfl
  rw [declareParameters_tables hparameters, hopened, htables, Tables.declare_function rfl]
  have hlist : (d.tables.functions ++ [(f.signature, f.vars)]).modify
      d.tables.functions.length (fun g => (g.1, g.2.append f.signature.entries)) =
      d.tables.functions ++ [(f.signature, ⟨.variableName, f.signature.entries⟩)] := by
    rw [modify_length, hvars]
    rfl
  exact congrArg (fun functions : List (Signature × Variables) =>
    ({ d.tables.name place f.name d.tables.functions.length with
      functions, function := some d.tables.functions.length } : Tables)) hlist

/-- The end of a function closes it, and its tables stay. -/
theorem closeFunction_tables (d : Draft) (n : Nat) (body : Option Nat) :
    (d.closeFunction n body).tables = d.tables.leave := by
  unfold closeFunction
  split
  · rfl
  · next f hf =>
    have hsame : (d.setFunction n { f with body }).tables = d.tables := by
      refine (tables_setFunction hf { f with body } id rfl).trans ?_
      rw [List.modify_id]
    exact congrArg Tables.leave hsame

/-- A class whose name is new is entered, and its methods are still to come. -/
theorem openClass_tables {k : Nat} {m : ModuleDeclaration} {name : String}
    {classes : Table Nat} (hmodule : d.module = some k)
    (hm : d.program.modules[k]? = some m)
    (h : m.classes.declare name d.program.classes.size = .ok classes) :
    (d.openClass k { m with classes } name).tables = d.tables.openClass name := by
  obtain ⟨-, rfl⟩ := Table.declare_ok h
  have htables := tables_setModule hmodule hm fun m =>
    { m with classes := m.classes.append [(name, d.program.classes.size)] }
  have hsize : d.tables.classes.length = d.program.classes.size := by simp [tables]
  have hpush : (d.program.classes.push { name := name }).toList =
      d.tables.classes ++ [{ name := name }] := by
    simp [tables]
  unfold Tables.openClass
  rw [hsize, ← htables, ← hpush]
  rfl

/-- A header opens a module whose tables are empty. -/
theorem startModule_tables (d : Draft) (name : String) :
    (d.startModule name).tables = d.tables.openModule name := by
  simp [tables, startModule, Tables.openModule]

end Draft

end Pseudocode
