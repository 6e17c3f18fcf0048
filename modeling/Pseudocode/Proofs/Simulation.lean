import Pseudocode.Proofs.Faults.Interpreter
import Pseudocode.Proofs.Fork

/-!
# Simulations

The same code may run twice, and the two runs differ: in the numbers of scopes and
cells, in what is traced, or in what becomes of a fault.  A *simulation* names what
corresponds in two such runs, and which computations do.  `Simulation.Lawful` asks for
the small computations that the interpreter is made of; that the interpreter itself
corresponds then follows once for all simulations.

Three things are shown in this way.  A run beside itself does not depend on what it traces,
nor on answers that it does not read (`beside`).  A module does on a used machine what it
does on a new one (`displacement`).  And the interpreter with its handlers does what the one
without them does, up to a fault (`breakingUp`).

The laws are about one step each: a value can be held, a variable looked up, a slot set, an
answer taken.  What follows from them without knowing the simulation is proved here, so that
each of the three has to be looked at in its own steps only.

> `Lawful.lifts`, `Lawful.convertsKnown`: operations on values correspond because their
> operands have the same value, and because they fail with simple faults.

A simulation follows the code of one module.  `Program.Row` tells the places of that
code at which an operator can be executed, and `Chart.Offers` the functions that it can
call; both are read off the layout of the program.

All variables of a run hold operands (`Machine.Bound`), since a name is bound when it is
declared.  What they may hold is a parameter (`Machine.Holding`), because one simulation has
to know that the values can be shown.
-/

namespace Pseudocode

open Exec Machine

/-! ## The code of a module -/

/-- Whether the code of a module can call a function. -/
def Chart.Offers (c : Chart) (number : Nat) (callee : Callee) : Prop :=
  ∃ label : Label, label.code.module = number ∧ c.Calls label callee

/-- Whether an expression can stand in the code of a module. -/
def Chart.Admits (c : Chart) (number : Nat) (e : Expr) : Prop :=
  e.Uses (fun _ => True) (c.Offers number)

/-- Whether a place belongs to the code of a module. -/
def Chart.Covers (c : Chart) (number : Nat) (i : Nat) : Prop :=
  ∃ label, c.Marks i label ∧ label.code.module = number

/-- Whether a place belongs to the code of a module and can be executed by itself. -/
def Program.Row (p : Program) (c : Chart) (number : Nat) (i : Nat) : Prop :=
  c.Covers number i ∧ p.forest.Has Operator.InRow i

section

variable {p : Program} {c : Chart} {number i : Nat} {node : Node Operator}

/-- The operator at a place of a module's code uses what the code can use. -/
theorem Chart.Covers.uses (hlayout : Layout p c) (h : c.Covers number i)
    (hnode : p.forest.nodes[i]? = some node) :
    node.operator.Uses (fun _ => True) (c.Offers number) := by
  obtain ⟨label, hmarks, rfl⟩ := h
  exact (hlayout.nodes i label node hmarks hnode).uses.imp (fun _ _ => trivial)
    fun _ hcallee => ⟨label, rfl, hcallee⟩

/-- What follows an operator that can be executed can be executed, too. -/
theorem Program.row_siblings (hlayout : Layout p c) (hregular : p.forest.Regular)
    {start : Option Nat} (hstart : ∀ i, start = some i → p.Row c number i) :
    ∀ i ∈ p.forest.siblings start, p.Row c number i := by
  unfold Forest.siblings
  generalize p.forest.size = limit
  induction limit generalizing start with
  | zero => cases start <;> exact nofun
  | succ limit ih =>
    cases start with
    | none => exact nofun
    | some i =>
      have hrow := hstart i rfl
      refine List.forall_mem_cons.mpr ⟨hrow, ih fun j hj => ?_⟩
      obtain ⟨⟨label, hmarks, rfl⟩, node, hnode, -⟩ := hrow
      rw [Forest.links, hnode] at hj
      obtain ⟨-, hnext⟩ := (hlayout.nodes i label node hmarks hnode).sibling j hj
      exact ⟨⟨_, hnext, by rw [Label.after_code]⟩,
        ((hregular i node hnode).sibling j hj).2⟩

/-- What is nested in an operator of a module's code can be executed. -/
theorem Program.row_children (hlayout : Layout p c) (hregular : p.forest.Regular)
    (h : c.Covers number i) (hnode : p.forest.nodes[i]? = some node)
    (hop : node.operator = .beginning ∨ node.operator.isConditional = true) :
    ∀ j ∈ p.forest.children i, p.Row c number j := by
  refine row_siblings hlayout hregular fun j hj => ?_
  obtain ⟨label, hmarks, rfl⟩ := h
  have hfits := hlayout.nodes i label node hmarks hnode
  rw [Forest.links, hnode] at hj
  have hnested := (hregular i node hnode).child j hj
  obtain hbeginning | hconditional := hop
  · exact ⟨⟨label, hfits.main j hj hbeginning, rfl⟩, hnested⟩
  · exact ⟨⟨label.inside, hfits.child j hj hconditional, rfl⟩, hnested⟩

/-- Further branches belong to the code of their conditional. -/
theorem Chart.Covers.branches (hlayout : Layout p c) (h : c.Covers number i)
    (hnode : p.forest.nodes[i]? = some node) {j : Nat}
    (hj : j ∈ node.links.alternatives ∨ node.links.fallback = some j) :
    c.Covers number j := by
  obtain ⟨label, hmarks, rfl⟩ := h
  exact ⟨label.inside, (hlayout.nodes i label node hmarks hnode).branches j hj, rfl⟩

/-- The last branch of a conditional has its operators nested. -/
theorem Chart.Covers.fallback (hlayout : Layout p c) (h : c.Covers number i)
    (hnode : p.forest.nodes[i]? = some node) {j : Nat}
    (hj : node.links.fallback = some j) :
    ∃ q, p.forest.nodes[j]? = some q ∧ q.operator.isConditional = true := by
  obtain ⟨label, hmarks, -⟩ := h
  exact (hlayout.nodes i label node hmarks hnode).fallback j hj

/-- No module lies in the code of a module. -/
theorem Chart.Covers.not_module (hlayout : Layout p c) (h : c.Covers number i)
    (hnode : p.forest.nodes[i]? = some node) (name : String) (inner : Nat) :
    node.operator ≠ .module name inner := by
  obtain ⟨label, hmarks, -⟩ := h
  exact (hlayout.nodes i label node hmarks hnode).inner name inner

/-- A function that the code of a module can call is one of that module, and its body can
be executed. -/
theorem Chart.Offers.function (hlayout : Layout p c) (hregular : p.forest.Regular)
    {callee : Callee} (h : c.Offers number callee) :
    ∃ d, p.modules[number]? = some d ∧ d.name = (p.function callee).module ∧
      ∀ i ∈ p.forest.siblings (p.function callee).body, p.Row c number i := by
  obtain ⟨label, rfl, hcallee⟩ := h
  obtain ⟨n, f, rfl, hf, hfunction⟩ := Level.function_of_calls hlayout hcallee
  obtain ⟨d, hd, hname⟩ := Level.module_of_calls hlayout hf hcallee
  rw [hfunction]
  refine ⟨d, hd, hname, Program.row_siblings hlayout hregular fun i hi => ?_⟩
  obtain ⟨_, note, heq, hnote, hmodule, -⟩ := hcallee
  cases heq
  obtain ⟨note', hnote', hfits⟩ := hlayout.functions n f hf
  cases hnote.symm.trans hnote'
  have hmarks := hfits.body i hi
  exact ⟨⟨_, hmarks, hmodule⟩, Level.has_inRow hlayout hmarks rfl⟩

/-- What the code of a module can call is declared. -/
theorem Chart.Offers.declared (hlayout : Layout p c) {callee : Callee}
    (h : c.Offers number callee) :
    ∃ (n : Nat) (f : FunctionDeclaration), p.functions[n]? = some f ∧ p.function callee = f := by
  obtain ⟨label, -, hcallee⟩ := h
  obtain ⟨n, f, -, hf, hfunction⟩ := Level.function_of_calls hlayout hcallee
  exact ⟨n, f, hf, hfunction⟩

/-- A program begins with modules, and what is nested in them can be executed. -/
theorem Program.row_root (hlayout : Layout p c) (hregular : p.forest.Regular) {root : Nat}
    (hroot : root ∈ p.forest.roots) :
    ∃ node number d, p.forest.nodes[root]? = some node ∧
      node.operator = .module d.name number ∧ p.modules[number]? = some d ∧
      ∀ i ∈ p.forest.children root, p.Row c number i := by
  obtain ⟨node, hnode, name, number, d, hop, hd, rfl, hchild⟩ := hlayout.roots root hroot
  refine ⟨node, number, d, hnode, hop, hd, row_siblings hlayout hregular fun i hi => ?_⟩
  have hlink : node.links.child = some i := by
    rwa [Forest.links, hnode] at hi
  exact ⟨⟨_, hchild i hlink, rfl⟩, (hregular root node hnode).child i hlink⟩

/-- What a module does at the place where it begins. -/
theorem Level.executeNode_module (below : Level) {name : String}
    (hnode : p.forest.nodes[i]? = some node) (hop : node.operator = .module name number) :
    executeNode p below i = (do
      tick
      trace 1 fun m => .ok ("exec " ++ Captioned.line node.operator ++ " depth="
        ++ toString m.frames.length)
      within none name Variables.empty fun scope => do
        modify fun m => m.recordModule name scope
        below.executeAll (p.forest.children i)) := by
  unfold executeNode
  simp only [hnode, hop]

end

/-! ## Variables that hold operands -/

/-- Whether all variables of a table hold operands, and such as are allowed. -/
def Variables.Holding (allowed : Operand → Prop) (vars : Variables) : Prop :=
  ∀ name v, (name, v) ∈ vars.entries →
    ∃ operand, v.binding = some (.held operand) ∧ allowed operand

/-- Whether all variables of a table hold operands. -/
def Variables.Bound (vars : Variables) : Prop := vars.Holding fun _ => True

namespace Variables

variable {vars : Variables} {name : String} {operand : Operand} {type : DeclaredType}
  {allowed : Operand → Prop}

/-- A table without variables. -/
theorem holding_nil {kind : NameKind} : Holding allowed ⟨kind, []⟩ := fun _ _ h => nomatch h

/-- What a variable holds is allowed. -/
theorem Holding.find? (h : vars.Holding allowed) {v : Variable}
    (hfound : vars.find? name = some v) :
    ∃ operand, v.binding = some (.held operand) ∧ allowed operand :=
  h name v (mem_of_find? hfound)

theorem Holding.append (h : vars.Holding allowed) (hoperand : allowed operand) :
    Holding allowed
      { vars with entries := vars.entries ++ [(name, ⟨type, some (.held operand)⟩)] } := by
  intro other v hmem
  obtain hmem | hmem := List.mem_append.mp hmem
  · exact h other v hmem
  · cases List.mem_singleton.mp hmem
    exact ⟨operand, rfl, hoperand⟩

/-- A variable that is there is bound anew. -/
theorem Holding.rebind (h : vars.Holding allowed) (hoperand : allowed operand) :
    (vars.rebind name (.held operand)).Holding allowed := by
  intro other v hmem
  obtain ⟨⟨name₁, v₁⟩, hmem₁, heq⟩ := List.mem_map.mp hmem
  split at heq
  · cases heq
    exact ⟨operand, rfl, hoperand⟩
  · cases heq
    exact h other v hmem₁

theorem Holding.put (h : vars.Holding allowed) (hoperand : allowed operand) :
    (vars.put type name operand).Holding allowed := by
  unfold Variables.put
  split
  · exact h.rebind hoperand
  · exact h.append hoperand

end Variables

/-- Whether all variables of all scopes hold operands, and such as are allowed. -/
def Machine.Holding (allowed : Operand → Prop) (m : Machine) : Prop :=
  ∀ id, (m.environment.scope id).vars.Holding allowed

/-- Whether all variables of all scopes hold operands. -/
def Machine.Bound (m : Machine) : Prop := m.Holding fun _ => True

namespace Machine

variable {m : Machine} {allowed : Operand → Prop}

theorem Holding.modify (h : m.Holding allowed) (id : Nat) {change : Variables → Variables}
    (hchange : ∀ vars, vars.Holding allowed → (change vars).Holding allowed) :
    Holding allowed { m with environment := m.environment.modifyVariables id change } := by
  intro i
  show ((m.environment.modifyVariables id change).scope i).vars.Holding allowed
  rw [Environment.scope_modify]
  split
  · exact hchange _ (h id)
  · exact h i

theorem Holding.enter (h : m.Holding allowed) (parent : Option Nat) (name : String)
    {vars : Variables} (hvars : vars.Holding allowed) :
    (entered m parent name vars).Holding allowed := by
  intro i
  rw [environment_entered]
  by_cases hi : i = m.environment.scopes.size
  · subst hi
    rwa [Environment.scope_enter.1]
  · rw [Environment.scope_enter_ne hi]
    exact h i

theorem Holding.pop (h : m.Holding allowed) : m.popScope.Holding allowed := by
  unfold popScope
  split
  · exact h
  · exact h.modify _ fun _ _ => Variables.holding_nil

/-- A variable that is found holds an operand. -/
theorem Holding.find? (h : m.Holding allowed) {scope : Nat} {name : String} {v : Variable}
    (hfound : m.environment.find? scope name = some v) :
    ∃ operand, v.binding = some (.held operand) ∧ allowed operand := by
  unfold Environment.find? at hfound
  obtain ⟨owner, -, hfound⟩ := Option.bind_eq_some_iff.mp hfound
  exact (h owner).find? hfound

end Machine

/-! ## What corresponds -/

/-- Whether a fault is raised as such, and not when a call fails. -/
def Fault.Raised : Fault → Prop
  | .failedIn .. | .badResult .. => False
  | _ => True

/-- Whether a fault is raised as such, and not for want of an answer. -/
def Fault.Immediate : Fault → Prop
  | .execution (.noAnswer _) => False
  | fault => fault.Raised

/-- What is raised at once is raised. -/
theorem Fault.Immediate.raised {fault : Fault} (h : fault.Immediate) : fault.Raised := by
  unfold Fault.Immediate at h
  split at h
  · exact h.elim
  · exact h

/-- A conversion wants no answer, and it calls nothing. -/
theorem Conversion.Admits.immediate {c : Conversion} {fault : Fault} (h : c.Admits fault) :
    fault.Immediate := by
  cases fault with
  | conversion _ | numeral _ => trivial
  | _ => exact h.elim

/-- Neither do operations on values. -/
theorem Fault.Simple.immediate {fault : Fault} (h : fault.Simple) : fault.Immediate := by
  obtain ⟨-, hnone⟩ := h
  cases fault with
  | failedIn _ _ | badResult _ _ | execution _ => cases hnone
  | _ => trivial

/-- What corresponds in two runs. -/
structure Simulation where
  /-- Operands that stand for each other. -/
  Operands : Operand → Operand → Prop
  /-- Numbers of scopes that stand for each other. -/
  Scopes : Nat → Nat → Prop
  /-- Tables of variables that stand for each other. -/
  Tables : Variables → Variables → Prop
  /-- Computations that correspond; if both have results, these are related. -/
  Runs : {α : Type} → (α → α → Prop) → Exec α → Exec α → Prop

namespace Simulation

/-- Variables of the same type that hold operands standing for each other. -/
inductive Vars (σ : Simulation) : Variable → Variable → Prop where
  | unbound (type) : Vars σ ⟨type, none⟩ ⟨type, none⟩
  | held (type) {a b} (operands : σ.Operands a b) :
      Vars σ ⟨type, some (.held a)⟩ ⟨type, some (.held b)⟩

/-- The small computations that the interpreter is made of correspond. -/
structure Lawful (σ : Simulation) : Prop where
  value : ∀ {v : Value}, v.Ordinary → σ.Operands (.value v) (.value v)
  contents : ∀ {slots content}, σ.Operands (.value (.array slots)) (.value (.array slots)) →
    some content ∈ slots → σ.Operands (.value content) (.value content)
  alike : ∀ {a b}, σ.Operands a b →
    (∃ v, a = .value v ∧ b = .value v) ∨ ∃ i j, a = .cell i ∧ b = .cell j
  -- sequences
  gives : ∀ {α : Type} {related : α → α → Prop} {a a' : α}, related a a' →
    σ.Runs related (pure a) (pure a')
  chains : ∀ {α β : Type} {related : α → α → Prop} {related' : β → β → Prop}
    {x x' : Exec α} {f f' : α → Exec β}, σ.Runs related x x' →
    (∀ a a', related a a' → σ.Runs related' (f a) (f' a')) →
    σ.Runs related' (x >>= f) (x' >>= f')
  loops : ∀ {guard guard' : Exec Bool} {body body' : Exec Unit}, σ.Runs Eq guard guard' →
    σ.Runs Eq body body' → σ.Runs Eq (loop guard body) (loop guard' body')
  -- ways of ending early
  fails : ∀ {α : Type} {related : α → α → Prop} {fault : Fault}, fault.Immediate →
    σ.Runs related (fail fault) (fail fault)
  returns : ∀ {α : Type} {related : α → α → Prop} {r r' : Option Operand},
    Option.Rel σ.Operands r r' →
    σ.Runs related (throw (.returned r)) (throw (.returned r'))
  ticks : σ.Runs Eq (tick none) (tick none)
  refusals : ∀ c, σ.Runs Eq (refuse c) (refuse c)
  -- operands
  reveals : ∀ {a b}, σ.Operands a b →
    σ.Runs (fun v v' => v = v' ∧ σ.Operands (.value v) (.value v)) (reveal a) (reveal b)
  keeps : ∀ {v : Value}, v.Ordinary → σ.Runs σ.Operands (keep v) (keep v)
  setsSlot : ∀ {i j} (index) (s : Scalar), σ.Operands (.cell i) (.cell j) →
    σ.Runs Eq (setSlot i index (.scalar s)) (setSlot j index (.scalar s))
  -- variables
  active : σ.Runs σ.Scopes activeScope activeScope
  looksUp : ∀ {s s'} (target), σ.Scopes s s' →
    σ.Runs σ.Vars (variableIn s target) (variableIn s' target)
  declares : ∀ {a b} (type name), σ.Operands a b →
    σ.Runs Eq (declareHere type name a) (declareHere type name b)
  rebinds : ∀ {s s' a b} (name), σ.Scopes s s' → σ.Operands a b →
    σ.Runs Eq (rebind s name a) (rebind s' name b)
  -- tables
  empty : σ.Tables Variables.empty Variables.empty
  binds : ∀ {t t' a b} (type name), σ.Tables t t' → σ.Operands a b →
    σ.Runs σ.Tables (lift (t.declare name ⟨type, some (.held a)⟩))
      (lift (t'.declare name ⟨type, some (.held b)⟩))
  -- what comes out and goes in
  tracesLine : ∀ {level} (text), 0 < level →
    σ.Runs Eq (trace level fun _ => .ok text) (trace level fun _ => .ok text)
  tracesDepth : ∀ {level} (before), 0 < level →
    σ.Runs Eq (trace level fun m => .ok (before ++ toString m.frames.length))
      (trace level fun m => .ok (before ++ toString m.frames.length))
  tracesText : ∀ {a b level} (before), 0 < level → σ.Operands a b →
    σ.Runs Eq (trace level fun m => do return before ++ (← m.textOf a))
      (trace level fun m => do return before ++ (← m.textOf b))
  reads : ∀ name type, σ.Runs Eq (nextAnswer name type) (nextAnswer name type)
  writes : ∀ {a b}, σ.Operands a b → σ.Runs Eq (Level.write a) (Level.write b)

/-- Scopes, calls and the code of modules correspond. -/
structure Scoped (σ : Simulation) (p : Program) (number : Nat) : Prop where
  finds : ∀ {d}, p.modules[number]? = some d →
    σ.Runs σ.Scopes (moduleScope d.name) (moduleScope d.name)
  refuses : ∀ {α : Type} {related : α → α → Prop} (name fault),
    σ.Runs related (fail (.badResult name fault)) (fail (.badResult name fault))
  catches : ∀ {body body' : Exec Unit} (function), σ.Runs Eq body body' →
    σ.Runs (Option.Rel σ.Operands) (Level.runBody function body)
      (Level.runBody function body')
  enters : ∀ {α : Type} {related : α → α → Prop} {s s' t t'} {x x' : Nat → Exec α} (name),
    σ.Scopes s s' → σ.Tables t t' →
    (∀ u u', σ.Scopes u u' → σ.Runs related (x u) (x' u')) →
    σ.Runs related (within (some s) name t x) (within (some s') name t' x')

namespace Lawful

variable {σ : Simulation} (h : σ.Lawful) {α β γ : Type} {related : α → α → Prop}
  {related' : β → β → Prop}

include h

/-- What follows on a result that is the same in both runs. -/
theorem next {x x' : Exec α} {f f' : α → Exec β} (hx : σ.Runs Eq x x')
    (hf : ∀ a, σ.Runs related' (f a) (f' a)) : σ.Runs related' (x >>= f) (x' >>= f') :=
  h.chains hx fun a _ heq => heq ▸ hf a

/-- Results that are related more closely. -/
theorem imp {related₁ : α → α → Prop} {x x' : Exec α} (hx : σ.Runs related x x')
    (himp : ∀ a a', related a a' → related₁ a a') : σ.Runs related₁ x x' := by
  have hchained := h.chains hx fun a a' hrelated => h.gives (himp a a' hrelated)
  rwa [bind_pure, bind_pure] at hchained

theorem revealsSame {a b : Operand} (hoperands : σ.Operands a b) :
    σ.Runs Eq (reveal a) (reveal b) :=
  h.imp (h.reveals hoperands) fun _ _ hv => hv.1

/-- A result that may be a failure, with what it is known from. -/
theorem liftsKnown {x : Except Fault α} (hx : Told Fault.Simple x) :
    σ.Runs (fun a a' => a = a' ∧ x = .ok a) (lift x) (lift x) := by
  cases x with
  | ok a => exact h.gives ⟨rfl, rfl⟩
  | error fault => exact h.fails (hx fault rfl).immediate

theorem lifts {x : Except Fault α} (hx : Told Fault.Simple x) :
    σ.Runs Eq (lift x) (lift x) :=
  h.imp (h.liftsKnown hx) fun _ _ ha => ha.1

/-- What follows on a value of which something is known. -/
theorem nextKnown {x : Except Fault α} (hx : Told Fault.Simple x) {f f' : α → Exec β}
    (hf : ∀ a, x = .ok a → σ.Runs related' (f a) (f' a)) :
    σ.Runs related' (lift x >>= f) (lift x >>= f') :=
  h.chains (h.liftsKnown hx) fun a _ ha => ha.1 ▸ hf a ha.2

/-- A conversion, with what its result is known from. -/
theorem convertsKnown (v : Value) (type : DeclaredType) :
    σ.Runs (fun u u' => u = u' ∧ v.convert type = .ok u) (converted v type)
      (converted v type) := by
  unfold converted
  cases hconvert : v.convert type with
  | ok u => exact h.gives ⟨rfl, rfl⟩
  | error fault =>
    exact h.next (h.refusals _) fun _ => h.fails (v.told_convert type fault hconvert).immediate

theorem convertsInteger (v : Value) : σ.Runs Eq (integerOf v) (integerOf v) := by
  unfold integerOf
  cases hinteger : v.toInteger with
  | ok n => exact h.gives rfl
  | error fault =>
    exact h.next (h.refusals _) fun _ => h.fails (v.told_integer fault hinteger).immediate

theorem converts {a b : Operand} (hoperands : σ.Operands a b) (type : DeclaredType) :
    σ.Runs σ.Operands (convert a type) (convert b type) := by
  refine h.next (h.revealsSame hoperands) fun v => ?_
  refine h.chains (h.convertsKnown v type) fun u u' hu => ?_
  obtain ⟨rfl, hconvert⟩ := hu
  exact h.keeps (Value.conforms_convert hconvert).ordinary

/-- One computation for each element of a list. -/
theorem maps {f f' : γ → Exec α} {cs : List γ}
    (hf : ∀ c ∈ cs, σ.Runs related (f c) (f' c)) :
    σ.Runs (List.Forall₂ related) (cs.mapM f) (cs.mapM f') := by
  induction cs with
  | nil => exact h.gives .nil
  | cons c cs ih =>
    obtain ⟨hc, hcs⟩ := List.forall_mem_cons.mp hf
    rw [List.mapM_cons, List.mapM_cons]
    refine h.chains hc fun a a' ha => h.chains (ih hcs) fun as as' has => ?_
    exact h.gives (.cons ha has)

end Lawful

end Simulation

end Pseudocode
