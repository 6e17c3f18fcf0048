import Pseudocode.Proofs.Layout.Built
import Pseudocode.Proofs.Source

/-!
# Drafts and contexts

A draft of a program holds the tables that a context only tells the names of.  They
agree if they were made by the same declarations (`Draft.Agrees`); then an expression
finds the same names in both, and a declaration that the rules allow is one that the
draft can enter, after which they agree again.
-/

namespace Pseudocode

open Source

/-- The table of the builder that functions of a place are entered into. -/
def Source.Place.entry (place : Place) (Γ : Context) : Builder.Owner :=
  match place with
  | .module => .module (Γ.modules.length - 1)
  | .classOf _ number => .classOf number

/-- A place that has a table. -/
def Source.Place.Exists (place : Place) (Γ : Context) : Prop :=
  match place with
  | .module => True
  | .classOf _ number => number < Γ.methods.length

/-- The header of a function. -/
def FunctionDeclaration.signature (f : FunctionDeclaration) : Signature :=
  ⟨f.name, f.owner, f.parameters, f.result, f.module⟩

namespace Table

variable {α : Type} {t : Table α} {name : String} {item : α}

/-- A table has the names of its entries. -/
theorem has_iff_mem_names : t.has name = true ↔ name ∈ t.names := by
  unfold has find? names
  simp

/-- A new name can be declared. -/
theorem declare_fresh (h : name ∉ t.names) :
    t.declare name item = .ok { t with entries := t.entries ++ [(name, item)] } := by
  unfold declare
  rw [if_neg (mt has_iff_mem_names.mp h)]

/-- A name that is not there is added to the names. -/
theorem declare_names (item : α) (h : name ∉ t.names) :
    ∃ t', t.declare name item = .ok t' ∧ t'.names = t.names ++ [name] :=
  ⟨_, declare_fresh h, by simp [names]⟩

/-- A name that is there is refused. -/
theorem declare_taken (item : α) (h : name ∈ t.names) :
    t.declare name item = .error (.redeclared t.kind name) := by
  unfold declare
  rw [if_pos (has_iff_mem_names.mpr h)]

end Table

namespace Draft

variable {d d' : Draft} {Γ Γ' : Context}

/-- A draft and a context come from the same declarations. -/
structure Agrees (d : Draft) (Γ : Context) : Prop where
  modules : d.program.modules.toList.map ModuleDeclaration.name = Γ.modules
  module : d.module = if Γ.modules = [] then none else some (Γ.modules.length - 1)
  tables : ∀ m, d.openModule? = some m → m.vars.names = Γ.vars ∧
    m.functions = ⟨.functionName, Γ.functions⟩ ∧ m.classes = ⟨.className, Γ.classes⟩
  methods : d.program.classes.toList.map ClassDeclaration.methods =
    Γ.methods.map (Table.mk .functionName)
  signatures : d.program.functions.toList.map FunctionDeclaration.signature =
    Γ.signatures
  function : d.function = Γ.opened.map Prod.fst
  own : ∀ f, d.openFunction? = some f → f.vars.names = Γ.own
  inside : ∀ n own, Γ.opened = some (n, own) → n < Γ.signatures.length

namespace Agrees

/-- Before the first token nothing is declared. -/
theorem fresh (tokens : List Token) : Agrees { ahead := tokens } {} := by
  refine ⟨rfl, rfl, fun m hm => ?_, rfl, rfl, rfl, fun f hf => ?_, fun n own h => ?_⟩
  · cases hm
  · cases hf
  · cases h

/-- What is ahead makes no difference. -/
theorem ahead (h : d.Agrees Γ) (ahead : List Token) : Agrees { d with ahead } Γ :=
  ⟨h.modules, h.module, h.tables, h.methods, h.signatures, h.function, h.own, h.inside⟩

/-- The forest makes no difference. -/
theorem withForest (h : d.Agrees Γ) (f : Forest Operator) : (d.withForest f).Agrees Γ :=
  ⟨h.modules, h.module, h.tables, h.methods, h.signatures, h.function, h.own, h.inside⟩

/-- There are as many modules in the draft as in the context. -/
theorem size_modules (h : d.Agrees Γ) :
    d.program.modules.size = Γ.modules.length := by
  rw [← h.modules, List.length_map, Array.length_toList]

/-- There are as many functions in the draft as in the context. -/
theorem size_functions (h : d.Agrees Γ) :
    d.program.functions.size = Γ.signatures.length := by
  rw [← h.signatures, List.length_map, Array.length_toList]

/-- There are as many classes in the draft as in the context. -/
theorem size_classes (h : d.Agrees Γ) : d.program.classes.size = Γ.methods.length := by
  have hlength := congrArg List.length h.methods
  rwa [List.length_map, List.length_map, Array.length_toList] at hlength

/-- Where a module is open, the draft has it. -/
theorem openModule (h : d.Agrees Γ) (hopen : Γ.modules ≠ []) :
    ∃ m, d.module = some (Γ.modules.length - 1) ∧
      d.program.modules[Γ.modules.length - 1]? = some m ∧ d.openModule? = some m ∧
      m.name = Γ.modules.getLast?.getD "" ∧ m.vars.names = Γ.vars ∧
      m.functions = ⟨.functionName, Γ.functions⟩ ∧
      m.classes = ⟨.className, Γ.classes⟩ := by
  have hmodule := h.module
  rw [if_neg hopen] at hmodule
  have hlt : Γ.modules.length - 1 < d.program.modules.size := by
    have hpos := List.length_pos_iff.mpr hopen
    rw [h.size_modules]
    omega
  have hm := Array.getElem?_eq_getElem hlt
  have hopened : d.openModule? = some d.program.modules[Γ.modules.length - 1] := by
    unfold openModule?
    rw [hmodule, Option.bind_some, hm]
  have hname : Γ.modules[Γ.modules.length - 1]? =
      some d.program.modules[Γ.modules.length - 1].name := by
    conv => lhs; rw [← h.modules]
    rw [List.getElem?_map, Array.getElem?_toList, h.modules, hm]
    rfl
  refine ⟨_, hmodule, hm, hopened, ?_, h.tables _ hopened⟩
  rw [List.getLast?_eq_getElem?, hname]
  rfl

/-- Where a function is open, the draft has it. -/
theorem openFunction (h : d.Agrees Γ) {n : Nat} {own : List String}
    (hopened : Γ.opened = some (n, own)) :
    ∃ f s, d.function = some n ∧ d.program.functions[n]? = some f ∧
      d.openFunction? = some f ∧ Γ.signatures[n]? = some s ∧ f.signature = s ∧
      f.vars.names = own := by
  have hfunction := h.function
  rw [hopened] at hfunction
  have hlt : n < d.program.functions.size := by
    rw [h.size_functions]
    exact h.inside n own hopened
  have hf := Array.getElem?_eq_getElem hlt
  have hopen : d.openFunction? = some d.program.functions[n] := by
    unfold openFunction?
    rw [hfunction]
    exact hf
  refine ⟨_, _, hfunction, hf, hopen, ?_, rfl, ?_⟩
  · rw [← h.signatures, List.getElem?_map, Array.getElem?_toList, hf]
    rfl
  · rw [h.own _ hopen]
    unfold Context.own
    rw [hopened]
    rfl

/-- Where no function is open, the draft has none open. -/
theorem openFunction_none (h : d.Agrees Γ) (hopened : Γ.opened = none) :
    d.function = none ∧ d.openFunction? = none := by
  have hfunction := h.function
  rw [hopened] at hfunction
  refine ⟨hfunction, ?_⟩
  unfold openFunction?
  rw [hfunction]
  rfl

/-- What the open function gives back. -/
theorem result? (h : d.Agrees Γ) :
    d.openFunction?.map FunctionDeclaration.result = Γ.result? := by
  unfold Context.result?
  cases hopened : Γ.opened with
  | none => rw [(h.openFunction_none hopened).2]; rfl
  | some o =>
    obtain ⟨f, s, -, -, hf, hs, hsignature, -⟩ := h.openFunction hopened
    rw [hf, Option.bind_some, hs, ← hsignature]
    rfl

/-! ## Names

What the context says of a name is what the draft finds under it: a variable in the tables of
the open function and the open module, a function or a method in those of the module. -/

/-- Variables are found in the same place. -/
theorem resolve (h : d.Agrees Γ) (hopen : Γ.modules ≠ []) (name : String) :
    d.resolve name = Γ.resolve name := by
  obtain ⟨m, hmodule, -, hm, -, hvars, -, -⟩ := h.openModule hopen
  have hown : (d.openFunction?.any fun f => f.vars.has name) = decide (name ∈ Γ.own) := by
    cases hopened : Γ.opened with
    | none =>
      rw [(h.openFunction_none hopened).2]
      simp [Context.own, hopened]
    | some o =>
      obtain ⟨f, -, -, -, hf, -, -, hnames⟩ := h.openFunction hopened
      rw [hf, Option.any_some]
      simp only [Context.own, hopened, Option.map_some, Option.getD_some, ← hnames]
      rw [Bool.eq_iff_iff, decide_eq_true_iff, Table.has_iff_mem_names]
  have houter : (d.openModule?.any fun m => m.vars.has name) =
      decide (name ∈ Γ.vars) := by
    rw [hm, Option.any_some, Bool.eq_iff_iff, decide_eq_true_iff, ← hvars,
      Table.has_iff_mem_names]
  unfold Draft.resolve Context.resolve Context.occurrence
  rw [hmodule, Option.bind_some, hown, houter, h.function]
  simp only [decide_eq_true_eq]

/-- A table of functions gives for a name what the context does. -/
theorem function_eq {table : Table Nat} {entries : List (String × Nat)}
    (htable : table = ⟨.functionName, entries⟩) (name : String) :
    (table.lookup name).map Callee.declared = Context.callee entries name := by
  subst htable
  unfold Table.lookup Table.find? Context.callee
  cases entries.lookup name <;> rfl

/-- Expressions find the same names. -/
theorem names (h : d.Agrees Γ) (hopen : Γ.modules ≠ []) : d.names = Γ.names := by
  obtain ⟨m, hmodule, hfound, -, -, -, hfunctions, hclasses⟩ := h.openModule hopen
  have hresolve : d.resolve = Γ.resolve := funext (h.resolve hopen)
  have hmethods : ∀ number : Nat,
      (d.program.classes[number]?).map ClassDeclaration.methods =
        (Γ.methods[number]?).map (Table.mk .functionName) := by
    intro number
    rw [← List.getElem?_map, ← h.methods, List.getElem?_map, Array.getElem?_toList]
  unfold Draft.names Context.names
  rw [hresolve, hmodule]
  congr 1
  · funext name
    dsimp only
    unfold Program.findFunction
    rw [hfound]
    exact function_eq hfunctions name
  · funext owner name
    dsimp only
    unfold Program.findMethod
    rw [hfound]
    simp only [hclasses, Table.lookup, Table.find?]
    cases Γ.classes.lookup owner with
    | none => rfl
    | some number =>
      have hclass := hmethods number
      dsimp only [bind, Except.bind, Option.bind_some]
      cases hc : d.program.classes[number]? with
      | none =>
        rw [hc, Option.map_none, eq_comm, Option.map_eq_none_iff] at hclass
        rw [hclass]
        rfl
      | some c =>
        rw [hc, Option.map_some, eq_comm, Option.map_eq_some_iff] at hclass
        obtain ⟨entries, hentries, htable⟩ := hclass
        rw [hentries]
        exact function_eq htable.symm name

/-! ## Declarations

Each step of the builder that enters a name corresponds to a step of the context.  The name is
either new for both or taken for both; so a draft agrees again afterwards, or both refuse. -/

/-- Other tables for the open module. -/
theorem setModule (h : d.Agrees Γ) (hopen : Γ.modules ≠ []) {m : ModuleDeclaration}
    (m' : ModuleDeclaration) {vars : List String} {functions classes : List (String × Nat)}
    (hm : d.program.modules[Γ.modules.length - 1]? = some m) (hname : m'.name = m.name)
    (hvars : m'.vars.names = vars)
    (hfunctions : m'.functions = ⟨.functionName, functions⟩)
    (hclasses : m'.classes = ⟨.className, classes⟩) :
    (d.setModule (Γ.modules.length - 1) m').Agrees
      { Γ with vars, functions, classes } := by
  have hmodules : ∀ i, (d.setModule (Γ.modules.length - 1) m').program.modules[i]? = _ :=
    modules_setModule hm
  refine ⟨?_, h.module, ?_, h.methods, h.signatures, h.function, h.own, h.inside⟩
  · refine Eq.trans ?_ h.modules
    apply List.ext_getElem?
    intro i
    rw [List.getElem?_map, List.getElem?_map, Array.getElem?_toList,
      Array.getElem?_toList, hmodules]
    split
    · next hi =>
      subst hi
      rw [hm]
      exact congrArg some hname
    · rfl
  · intro m'' hm''
    obtain ⟨-, hmodule, -⟩ := h.openModule hopen
    have hnew : (d.setModule (Γ.modules.length - 1) m').openModule? = some m' := by
      show d.module.bind _ = _
      rw [hmodule, Option.bind_some, hmodules, if_pos rfl]
    rw [hnew] at hm''
    cases hm''
    exact ⟨hvars, hfunctions, hclasses⟩

/-- Other variables for the open function. -/
theorem setFunction (h : d.Agrees Γ) {n : Nat} {own own' : List String}
    (hopened : Γ.opened = some (n, own)) {f : FunctionDeclaration}
    (f' : FunctionDeclaration) (hf : d.program.functions[n]? = some f)
    (hsignature : f'.signature = f.signature) (hvars : f'.vars.names = own') :
    (d.setFunction n f').Agrees { Γ with opened := some (n, own') } := by
  have hfunctions : ∀ i, (d.setFunction n f').program.functions[i]? = _ :=
    functions_setFunction hf
  have hfunction : d.function = some n := by
    rw [h.function, hopened]
    rfl
  refine ⟨h.modules, h.module, h.tables, h.methods, ?_, hfunction, ?_, ?_⟩
  · refine Eq.trans ?_ h.signatures
    apply List.ext_getElem?
    intro i
    rw [List.getElem?_map, List.getElem?_map, Array.getElem?_toList,
      Array.getElem?_toList, hfunctions]
    split
    · next hi =>
      subst hi
      rw [hf]
      exact congrArg some hsignature
    · rfl
  · intro f'' hf''
    have hnew : (d.setFunction n f').openFunction? = some f' := by
      show d.function.bind _ = _
      rw [hfunction, Option.bind_some, hfunctions, if_pos rfl]
    rw [hnew] at hf''
    cases hf''
    exact hvars
  · intro n' own'' hown
    cases hown
    exact h.inside n own hopened

/-- A variable that the rules let declare is entered, and all else stays. -/
theorem declareVariable (h : d.Agrees Γ) (hopen : Γ.modules ≠ []) {name : String}
    (hfresh : name ∉ Γ.table) (v : Variable) :
    ∃ d', d.declareVariable name v = .ok d' ∧ d'.Agrees (Γ.declare name) ∧
      d'.program.forest = d.program.forest ∧ d'.ahead = d.ahead ∧
      d'.block = d.block ∧ d'.last = d.last := by
  unfold Context.table at hfresh
  unfold Draft.declareVariable Context.declare
  cases hopened : Γ.opened with
  | none =>
    rw [hopened] at hfresh
    obtain ⟨hfunction, -⟩ := h.openFunction_none hopened
    obtain ⟨m, hmodule, hfound, hm, -, hvars, hfunctions, hclasses⟩ := h.openModule hopen
    obtain ⟨vars, hdeclare, hnames⟩ := m.vars.declare_names v (by rwa [hvars])
    rw [hvars] at hnames
    have hagrees :=
      h.setModule hopen { m with vars } hfound rfl hnames hfunctions hclasses
    rw [hopened] at hagrees
    refine ⟨d.setModule (Γ.modules.length - 1) { m with vars }, ?_, hagrees, rfl, rfl,
      rfl, rfl⟩
    simp only [hfunction, hmodule, hm, hdeclare]
    rfl
  | some o =>
    obtain ⟨n, own⟩ := o
    rw [hopened] at hfresh
    obtain ⟨f, s, hfunction, hf, -, -, -, hown⟩ := h.openFunction hopened
    obtain ⟨vars, hdeclare, hnames⟩ := f.vars.declare_names v (by rwa [hown])
    rw [hown] at hnames
    refine ⟨d.setFunction n { f with vars }, ?_,
      h.setFunction hopened { f with vars } hf rfl hnames, rfl, rfl, rfl, rfl⟩
    simp only [hfunction, hf, hdeclare]
    rfl

/-- A variable that is there already is refused. -/
theorem declareVariable_taken (h : d.Agrees Γ) (hopen : Γ.modules ≠ []) {name : String}
    (htaken : name ∈ Γ.table) (v : Variable) :
    ∃ kind, d.declareVariable name v = .error (.redeclared kind name) := by
  unfold Context.table at htaken
  unfold Draft.declareVariable
  cases hopened : Γ.opened with
  | none =>
    rw [hopened] at htaken
    obtain ⟨hfunction, -⟩ := h.openFunction_none hopened
    obtain ⟨m, hmodule, -, hm, -, hvars, -, -⟩ := h.openModule hopen
    have hdeclare := m.vars.declare_taken v (by rwa [hvars])
    refine ⟨m.vars.kind, ?_⟩
    simp only [hfunction, hmodule, hm, hdeclare]
    rfl
  | some o =>
    rw [hopened] at htaken
    obtain ⟨f, s, hfunction, hf, -, -, -, hnames⟩ := h.openFunction hopened
    have hdeclare := f.vars.declare_taken v (by rwa [hnames])
    refine ⟨f.vars.kind, ?_⟩
    simp only [hfunction, hf, hdeclare]
    rfl

/-! ## Functions

A function is entered in three steps: its name in the table of its place, the function itself
with its parameters, and at the end its body.  Of the body a context says nothing, so it has
made all steps when the header has been read. -/

/-- Other methods for a class. -/
theorem setClass (h : d.Agrees Γ) (number : Nat) (c' : ClassDeclaration)
    {methods : List (String × Nat)} (hmethods : c'.methods = ⟨.functionName, methods⟩) :
    (d.setClass number c').Agrees { Γ with methods := Γ.methods.set number methods } := by
  refine ⟨h.modules, h.module, h.tables, ?_, h.signatures, h.function, h.own, h.inside⟩
  show (d.program.classes.setIfInBounds number c').toList.map _ = _
  rw [Array.toList_setIfInBounds, List.map_set, h.methods, List.map_set, hmethods]

/-- One more function, which is open and has no variables yet. -/
theorem pushFunction (h : d.Agrees Γ) (f : FunctionDeclaration) (hvars : f.vars.names = []) :
    Agrees { d.pushFunction f with function := some Γ.signatures.length }
      { Γ with
        signatures := Γ.signatures ++ [f.signature]
        opened := some (Γ.signatures.length, []) } := by
  refine ⟨h.modules, h.module, h.tables, h.methods, ?_, rfl, ?_, ?_⟩
  · show (d.program.functions.push f).toList.map _ = _
    rw [Array.toList_push, List.map_append, h.signatures]
    rfl
  · intro g hg
    have hnew : (d.program.functions.push f)[Γ.signatures.length]? = some f := by
      rw [← h.size_functions, Array.getElem?_push_size]
    cases hnew.symm.trans hg
    exact hvars
  · rintro _ _ ⟨⟩
    show Γ.signatures.length < (Γ.signatures ++ [f.signature]).length
    rw [List.length_append]
    exact Nat.lt_succ_self _

/-- The table that the functions of a place are in. -/
theorem methodsOf (h : d.Agrees Γ) {number : Nat} (hlt : number < Γ.methods.length) :
    ∃ c, d.program.classes[number]? = some c ∧
      c.methods = ⟨.functionName, (Γ.methods[number]?).getD []⟩ := by
  have hc := Array.getElem?_eq_getElem (h.size_classes ▸ hlt)
  refine ⟨_, hc, ?_⟩
  have hmap := congrArg (·[number]?) h.methods
  simp only [List.getElem?_map, Array.getElem?_toList, hc, Option.map_some,
    List.getElem?_eq_getElem hlt] at hmap
  rw [Option.some.inj hmap, List.getElem?_eq_getElem hlt]
  rfl

/-- A function that the rules let declare is entered and open. -/
theorem declareFunction (h : d.Agrees Γ) (hopen : Γ.modules ≠ []) {place : Place}
    (hplace : place.Exists Γ) {f : FunctionDeclaration} (hvars : f.vars.names = [])
    (hfresh : f.name ∉ (Γ.functionsOf place).map Prod.fst) :
    ∃ d', Builder.declareFunction (place.entry Γ) f d =
        .ok (Γ.signatures.length, d') ∧
      Agrees { d' with function := some Γ.signatures.length }
        { Γ.enter place f.signature with opened := some (Γ.signatures.length, []) } ∧
      d'.program.forest = d.program.forest ∧ d'.ahead = d.ahead ∧
      d'.block = d.block ∧ d'.last = d.last := by
  cases place with
  | module =>
    obtain ⟨m, -, hfound, -, -, hmvars, hfunctions, hclasses⟩ := h.openModule hopen
    have hdeclare : m.functions.declare f.name Γ.signatures.length =
        .ok ⟨.functionName, Γ.functions ++ [(f.name, Γ.signatures.length)]⟩ := by
      rw [hfunctions]
      exact Table.declare_fresh hfresh
    have hset := h.setModule hopen
      { m with functions := ⟨.functionName, Γ.functions ++ [(f.name, Γ.signatures.length)]⟩ }
      hfound rfl hmvars rfl hclasses
    refine ⟨_, ?_, hset.pushFunction f hvars, rfl, rfl, rfl, rfl⟩
    rw [← h.size_functions] at hdeclare ⊢
    simp only [Builder.declareFunction, Place.entry, bind_ok, get_ok]
    refine ⟨d, d, rfl, ?_⟩
    rw [hfound]
    simp only [bind_ok, lift_ok, set_ok, modify_ok, pure_ok]
    exact ⟨_, d, ⟨hdeclare, rfl⟩, _, _, rfl, _, _, rfl, rfl⟩
  | classOf name number =>
    obtain ⟨c, hc, hmethods⟩ := h.methodsOf hplace
    have hdeclare : c.methods.declare f.name Γ.signatures.length =
        .ok ⟨.functionName, (Γ.methods[number]?).getD [] ++
          [(f.name, Γ.signatures.length)]⟩ := by
      rw [hmethods]
      exact Table.declare_fresh hfresh
    have hset := h.setClass number { c with methods := ⟨.functionName,
      (Γ.methods[number]?).getD [] ++ [(f.name, Γ.signatures.length)]⟩ } rfl
    refine ⟨_, ?_, hset.pushFunction f hvars, rfl, rfl, rfl, rfl⟩
    rw [← h.size_functions] at hdeclare ⊢
    simp only [Builder.declareFunction, Place.entry, bind_ok, get_ok]
    refine ⟨d, d, rfl, ?_⟩
    rw [hc]
    simp only [bind_ok, lift_ok, set_ok, modify_ok, pure_ok]
    exact ⟨_, d, ⟨hdeclare, rfl⟩, _, _, rfl, _, _, rfl, rfl⟩

/-- A function whose name is there already is refused. -/
theorem declareFunction_taken (h : d.Agrees Γ) (hopen : Γ.modules ≠ []) {place : Place}
    (hplace : place.Exists Γ) {f : FunctionDeclaration}
    (htaken : f.name ∈ (Γ.functionsOf place).map Prod.fst) :
    Builder.declareFunction (place.entry Γ) f d =
      .error (.redeclared .functionName f.name) := by
  have hdeclare : ∀ number, Table.declare ⟨.functionName, Γ.functionsOf place⟩ f.name number =
      .error (.redeclared .functionName f.name) :=
    fun number => Table.declare_taken number htaken
  have hget : ∀ g : Draft → Builder Nat, (get >>= g) d = g d d := fun _ => rfl
  unfold Builder.declareFunction Place.entry
  cases place with
  | module =>
    obtain ⟨m, -, hfound, -, -, -, hfunctions, -⟩ := h.openModule hopen
    rw [hget]
    dsimp only
    rw [hfound]
    show ((liftM (m.functions.declare f.name d.program.functions.size) : Builder _) >>= _)
      d = _
    rw [hfunctions, show Γ.functions = Γ.functionsOf .module from rfl, hdeclare]
    rfl
  | classOf name number =>
    obtain ⟨c, hc, hmethods⟩ := h.methodsOf hplace
    rw [hget]
    dsimp only
    rw [hc]
    show ((liftM (c.methods.declare f.name d.program.functions.size) : Builder _) >>= _)
      d = _
    rw [hmethods, show (Γ.methods[number]?).getD [] = Γ.functionsOf (.classOf name number)
      from rfl, hdeclare]
    rfl

/-- Parameters are entered one by one, and the first that repeats a name is
refused. -/
theorem declareParameters (hopen : Γ.modules ≠ []) {n : Nat} :
    ∀ (parameters : List Parameter) {own : List String} {d : Draft},
      d.Agrees { Γ with opened := some (n, own) } → own.Nodup →
      ((own ++ parameters.map Parameter.name).Nodup ∧
        ∃ d', Builder.declareParameters parameters d = .ok ((), d') ∧
          d'.Agrees
            { Γ with opened := some (n, own ++ parameters.map Parameter.name) } ∧
          d'.program.forest = d.program.forest ∧ d'.ahead = d.ahead ∧
          d'.block = d.block ∧ d'.last = d.last) ∨
      (¬ (own ++ parameters.map Parameter.name).Nodup ∧ ∃ kind name,
        Builder.declareParameters parameters d = .error (.redeclared kind name))
  | [], own, d, h, hown => by
    rw [List.map_nil, List.append_nil]
    exact .inl ⟨hown, d, rfl, h, rfl, rfl, rfl, rfl⟩
  | p :: parameters, own, d, h, hown => by
    have hsplit : own ++ (p :: parameters).map Parameter.name =
        (own ++ [p.name]) ++ parameters.map Parameter.name := by simp
    by_cases htaken : p.name ∈ own
    · obtain ⟨kind, hdeclare⟩ :=
        h.declareVariable_taken hopen (show p.name ∈ _ from htaken) ⟨p.type, none⟩
      refine .inr ⟨fun hnodup => ?_, kind, p.name, ?_⟩
      · rw [hsplit, List.nodup_append] at hnodup
        obtain ⟨hfirst, -⟩ := hnodup
        rw [List.nodup_append] at hfirst
        exact hfirst.2.2 p.name htaken p.name (List.mem_singleton_self _) rfl
      · unfold Builder.declareParameters
        show ((d.declareVariable p.name ⟨p.type, none⟩ >>= fun r => Except.ok (r, d)) >>=
          _) = _
        rw [hdeclare]
        rfl
    · obtain ⟨d₁, hdeclare, hagrees, hforest, hahead, hblock, hlast⟩ :=
        h.declareVariable hopen (show p.name ∉ _ from htaken) ⟨p.type, none⟩
      have hrun : Builder.declareParameters (p :: parameters) d =
          Builder.declareParameters parameters d₁ := by
        conv => lhs; unfold Builder.declareParameters
        show ((d.declareVariable p.name ⟨p.type, none⟩ >>= fun r => Except.ok (r, d)) >>=
          _) = _
        rw [hdeclare]
        rfl
      have hown' : (own ++ [p.name]).Nodup := by
        rw [List.nodup_append]
        refine ⟨hown, by simp, fun a ha b hb hab => htaken ?_⟩
        rw [List.mem_singleton.mp hb] at hab
        exact hab ▸ ha
      rw [hsplit, hrun]
      obtain ⟨hnodup, d', hrest, hagrees', hforest', hahead', hblock', hlast'⟩ | hrefused :=
        declareParameters hopen parameters hagrees hown'
      · exact .inl ⟨hnodup, d', hrest, hagrees', hforest'.trans hforest,
          hahead'.trans hahead, hblock'.trans hblock, hlast'.trans hlast⟩
      · exact .inr hrefused

/-- Behind a function that is complete. -/
theorem closeFunction (h : d.Agrees Γ) (number : Nat) (body : Option Nat) :
    (d.closeFunction number body).Agrees Γ.leave := by
  unfold Draft.closeFunction
  split
  · refine ⟨h.modules, h.module, h.tables, h.methods, h.signatures, rfl, ?_, ?_⟩
    · rintro _ ⟨⟩
    · rintro _ _ ⟨⟩
  · next f hf =>
    refine ⟨h.modules, h.module, h.tables, h.methods, ?_, rfl, ?_, ?_⟩
    · refine Eq.trans ?_ h.signatures
      apply List.ext_getElem?
      intro i
      rw [List.getElem?_map, List.getElem?_map, Array.getElem?_toList,
        Array.getElem?_toList]
      show ((d.setFunction number { f with body }).program.functions[i]?).map _ = _
      rw [functions_setFunction hf]
      split
      · next hi =>
        subst hi
        rw [hf]
        rfl
      · rfl
    · rintro _ ⟨⟩
    · rintro _ _ ⟨⟩

/-! ## Classes and modules

A class opens a table of methods, a module one of functions and one of variables.  Only the
last module is open, so nothing is ever entered into the others. -/

/-- A class that the rules let declare is entered. -/
theorem openClass (h : d.Agrees Γ) (hopen : Γ.modules ≠ []) {m : ModuleDeclaration}
    (hm : d.program.modules[Γ.modules.length - 1]? = some m)
    (hopened : d.openModule? = some m) {name : String}
    (hfresh : name ∉ Γ.classes.map Prod.fst) :
    ∃ classes, m.classes.declare name d.program.classes.size = .ok classes ∧
      (d.openClass (Γ.modules.length - 1) { m with classes } name).Agrees
        (Γ.openClass name) := by
  obtain ⟨hvars, hfunctions, hclasses⟩ := h.tables m hopened
  have hdeclare : m.classes.declare name Γ.methods.length =
      .ok ⟨.className, Γ.classes ++ [(name, Γ.methods.length)]⟩ := by
    rw [hclasses]
    exact Table.declare_fresh hfresh
  rw [h.size_classes]
  refine ⟨_, hdeclare, ?_⟩
  have hset := h.setModule hopen
    { m with classes := ⟨.className, Γ.classes ++ [(name, Γ.methods.length)]⟩ }
    hm rfl hvars hfunctions rfl
  refine ⟨hset.modules, hset.module, hset.tables, ?_, hset.signatures, hset.function,
    hset.own, hset.inside⟩
  show (d.program.classes.push { name }).toList.map _ = _
  rw [Array.toList_push, List.map_append, h.methods]
  unfold Context.openClass
  rw [List.map_append]
  rfl

/-- A class whose name is there already is refused. -/
theorem openClass_taken (h : d.Agrees Γ) {m : ModuleDeclaration}
    (hopened : d.openModule? = some m) {name : String}
    (htaken : name ∈ Γ.classes.map Prod.fst) (number : Nat) :
    m.classes.declare name number = .error (.redeclared .className name) := by
  rw [(h.tables m hopened).2.2]
  exact Table.declare_taken number htaken

/-- Behind the header of a module. -/
theorem startModule (h : d.Agrees Γ) (hclosed : Γ.opened = none) (name : String) :
    (d.startModule name).Agrees (Γ.openModule name) := by
  have hsize := h.size_modules
  refine ⟨?_, ?_, ?_, h.methods, h.signatures, h.function, h.own, ?_⟩
  · show (d.program.modules.push { name }).toList.map _ = _
    rw [Array.toList_push, List.map_append, h.modules]
    rfl
  · show some d.program.modules.size = _
    unfold Context.openModule
    rw [if_neg (by simp), hsize, List.length_append]
    rfl
  · intro m hm
    have hnew : (d.startModule name).openModule? = some { name } := by
      show (d.program.modules.push { name })[d.program.modules.size]? = _
      rw [Array.getElem?_push_size]
    cases hnew.symm.trans hm
    exact ⟨rfl, rfl, rfl⟩
  · intro n own hopened
    exact nomatch hclosed.symm.trans hopened

end Agrees

end Draft

end Pseudocode
