import Pseudocode.Proofs.Simulation

/-!
# The interpreter in a simulation

Two levels correspond if whatever one of them does for the code of a module, the other
does in a way that corresponds (`Level.Corresponds`).  If two levels correspond, so do
the expressions and the operators of the next ones, for every lawful simulation; and if
scopes and calls correspond, too, so do all levels of a running program
(`corresponds_running`).

There is one lemma for each function of the interpreter, in the order in which they are
defined, and none of them knows the simulation.  The induction is on the depth of levels: the
operators of a level are made of what the level below does, and at the bottom both fail in
the same way.

Expressions and operators belong to one module, and what they use is told by the chart of
the program (`Chart.Admits`, `Program.Row`).  So a call stays in the module (`Chart.Offers`),
and it is enough that a simulation follows that module's scope (`Simulation.Scoped`).
-/

namespace Pseudocode

open Exec Machine

/-- Whatever two levels do for the code of a module corresponds. -/
structure Level.Corresponds (σ : Simulation) (p : Program) (c : Chart) (number : Nat)
    (level level' : Level) : Prop where
  evaluate : ∀ {s s' e}, σ.Scopes s s' → c.Admits number e →
    σ.Runs σ.Operands (level.evaluate (some s) e) (level'.evaluate (some s') e)
  execute : ∀ {i}, p.Row c number i → σ.Runs Eq (level.execute i) (level'.execute i)
  call : ∀ {callee arguments arguments'}, c.Offers number callee →
    List.Forall₂ σ.Operands arguments arguments' →
    σ.Runs (Option.Rel σ.Operands) (level.call callee arguments)
      (level'.call callee arguments')

namespace Level

variable {σ : Simulation} (hσ : σ.Lawful) {p : Program} {c : Chart} {number : Nat}

include hσ

/-- The lowest levels do nothing but fail. -/
theorem corresponds_bottom : Corresponds σ p c number bottom bottom :=
  ⟨fun _ _ => hσ.fails trivial, fun _ => hσ.fails trivial, fun _ _ => hσ.fails trivial⟩

variable {below below' : Level} (h : Corresponds σ p c number below below')

include h

/-! ## Expressions -/

section

variable {s s' : Nat} (hscope : σ.Scopes s s')

include hscope

omit h in
/-- A variable is looked up and its operand is read. -/
theorem runs_readVariable (target : Occurrence) :
    σ.Runs σ.Operands (below.readVariable (some s) target)
      (below'.readVariable (some s') target) := by
  refine hσ.chains (hσ.looksUp target hscope) fun v v' hvars => ?_
  cases hvars with
  | unbound type => exact hσ.fails trivial
  | held type operands => exact hσ.gives operands

theorem Corresponds.evaluateTruth {e : Expr} (he : c.Admits number e) :
    σ.Runs Eq (below.evaluateTruth (some s) e) (below'.evaluateTruth (some s') e) :=
  hσ.chains (h.evaluate hscope he) fun _ _ hoperands =>
    hσ.next (hσ.revealsSame hoperands) fun v => hσ.lifts v.told_toBoolean.simple

theorem Corresponds.evaluateInteger {e : Expr} (he : c.Admits number e) :
    σ.Runs Eq (below.evaluateInteger (some s) e) (below'.evaluateInteger (some s') e) :=
  hσ.chains (h.evaluate hscope he) fun _ _ hoperands =>
    hσ.next (hσ.revealsSame hoperands) hσ.convertsInteger

/-- A condition; its right side may not be evaluated, and then in neither run. -/
theorem Corresponds.evaluateCondition {op : Condition}
    (hop : ∀ symbol, op ≠ .compare (.other symbol)) {left right : Expr}
    (hleft : c.Admits number left) (hright : c.Admits number right) :
    σ.Runs Eq (below.evaluateCondition (some s) op left right)
      (below'.evaluateCondition (some s') op left right) := by
  cases op with
  | both =>
    refine hσ.next (h.evaluateTruth hσ hscope hleft) fun holds => ?_
    split
    · exact h.evaluateTruth hσ hscope hright
    · exact hσ.gives rfl
  | either =>
    refine hσ.next (h.evaluateTruth hσ hscope hleft) fun holds => ?_
    split
    · exact hσ.gives rfl
    · exact h.evaluateTruth hσ hscope hright
  | compare comparison =>
    have hknown : ∀ symbol, comparison ≠ .other symbol := fun symbol heq =>
      hop symbol (congrArg Condition.compare heq)
    refine hσ.chains (h.evaluate hscope hleft) fun a a' ha => ?_
    refine hσ.chains (h.evaluate hscope hright) fun b b' hb => ?_
    exact hσ.next (hσ.revealsSame ha) fun u => hσ.next (hσ.revealsSame hb) fun v =>
      hσ.lifts (Value.told_compare hknown u v)

omit h hscope in
theorem runs_readSlot (name : String) {array array' : Operand}
    (harrays : σ.Operands array array') (index : Int) :
    σ.Runs σ.Operands (readSlot name array index) (readSlot name array' index) := by
  refine hσ.chains (hσ.reveals harrays) fun v v' hv => ?_
  obtain ⟨rfl, hvalue⟩ := hv
  split
  · refine hσ.nextKnown (Value.told_slotAt _ _) fun slot hslot => ?_
    split
    · exact hσ.fails trivial
    · exact hσ.gives (hσ.contents hvalue (Value.mem_of_slotAt hslot))
  · exact hσ.fails trivial

/-- By cases on the expression: operands are evaluated from left to right. -/
theorem Corresponds.evaluateNode {e : Expr} (he : c.Admits number e) :
    σ.Runs σ.Operands (below.evaluateNode (some s) e)
      (below'.evaluateNode (some s') e) := by
  refine hσ.next hσ.ticks fun _ => ?_
  cases he with
  | literal s => exact hσ.gives (hσ.value trivial)
  | read _ => exact runs_readVariable hσ hscope _
  | slot _ hindex =>
    refine hσ.chains (runs_readVariable hσ hscope _) fun array array' harrays => ?_
    exact hσ.next (h.evaluateInteger hσ hscope hindex) fun _ => runs_readSlot hσ _ harrays _
  | sign hoperand =>
    refine hσ.chains (h.evaluate hscope hoperand) fun a a' ha => ?_
    refine hσ.next (hσ.revealsSame ha) fun v => hσ.nextKnown (v.told_negate _) fun _ h => ?_
    obtain ⟨s, rfl⟩ := Value.negate_scalar h
    exact hσ.gives (hσ.value trivial)
  | arithmetic known hleft hright =>
    refine hσ.chains (h.evaluate hscope hleft) fun a a' ha => ?_
    refine hσ.chains (h.evaluate hscope hright) fun b b' hb => ?_
    refine hσ.next (hσ.revealsSame ha) fun u => hσ.next (hσ.revealsSame hb) fun v => ?_
    refine hσ.nextKnown (Value.told_combine known u v) fun _ h => ?_
    obtain ⟨s, rfl⟩ := Value.combine_scalar h
    exact hσ.gives (hσ.value trivial)
  | condition known hleft hright =>
    exact hσ.next (h.evaluateCondition hσ hscope known hleft hright) fun _ =>
      hσ.gives (hσ.value trivial)
  | call hcallee harguments =>
    refine hσ.chains (hσ.maps fun e he => h.evaluate hscope (harguments e he))
      fun operands operands' hoperands => ?_
    refine hσ.chains (h.call hcallee hoperands) fun result result' hresults => ?_
    cases hresults with
    | some hresult => exact hσ.gives hresult
    | none => exact hσ.fails trivial

end

/-! ## Operators -/

/-- Operators that are executed one after the other. -/
theorem Corresponds.executeAll {places : List Nat}
    (hplaces : ∀ i ∈ places, p.Row c number i) :
    σ.Runs Eq (below.executeAll places) (below'.executeAll places) := by
  induction places with
  | nil => exact hσ.ticks
  | cons i places ih =>
    obtain ⟨hi, hrest⟩ := List.forall_mem_cons.mp hplaces
    exact hσ.next (h.execute hi) fun _ => ih hrest

/-- An expression in the innermost scope. -/
theorem Corresponds.evaluateHere {e : Expr} (he : c.Admits number e) :
    σ.Runs σ.Operands (activeScope >>= fun scope => below.evaluate (some scope) e)
      (activeScope >>= fun scope => below'.evaluate (some scope) e) :=
  hσ.chains hσ.active fun _ _ hscope => h.evaluate hscope he

theorem Corresponds.testGuard {guard : Expr} (hguard : c.Admits number guard) :
    σ.Runs Eq (below.testGuard guard) (below'.testGuard guard) := by
  refine hσ.chains hσ.active fun s s' hscope => ?_
  refine hσ.next (h.evaluateInteger hσ hscope hguard) fun _ => ?_
  exact hσ.next (hσ.tracesLine _ (by decide)) fun _ => hσ.gives rfl

omit h in
theorem runs_declareAs (type : DeclaredType) (name : String) {a a' : Operand}
    (ha : σ.Operands a a') :
    σ.Runs Eq (declareAs type name a) (declareAs type name a') :=
  hσ.chains (hσ.converts ha type) fun held held' hheld =>
    hσ.next (hσ.declares type name hheld) fun _ => hσ.tracesText _ (by decide) hheld

theorem Corresponds.executeDeclaration (type : DeclaredType) (name : String)
    {initial : Option Expr} (hinitial : ∀ e ∈ initial, c.Admits number e) :
    σ.Runs Eq (below.executeDeclaration type name initial)
      (below'.executeDeclaration type name initial) := by
  cases initial with
  | some e =>
    rw [executeDeclaration_some, executeDeclaration_some]
    exact hσ.chains hσ.active fun _ _ hscope =>
      hσ.chains (h.evaluate hscope (hinitial e rfl)) fun _ _ ha =>
        runs_declareAs hσ type name ha
  | none =>
    rw [executeDeclaration_none, executeDeclaration_none]
    exact hσ.nextKnown (Value.told_initial type) fun v hinitial =>
      runs_declareAs hσ type name (hσ.value (Value.ordinary_initial hinitial))

omit h in
/-- A value is converted to the type of the variable that then holds it. -/
theorem runs_rebindConverted {s s' : Nat} (hscope : σ.Scopes s s') (name : String)
    (type : DeclaredType) {a a' : Operand} (ha : σ.Operands a a')
    {behind behind' : Operand → Exec Unit}
    (hbehind : ∀ b b', σ.Operands b b' → σ.Runs Eq (behind b) (behind' b')) :
    σ.Runs Eq (do
      let held ← convert a type
      rebind s name held
      behind held) (do
      let held ← convert a' type
      rebind s' name held
      behind' held) :=
  hσ.chains (hσ.converts ha type) fun held held' hheld =>
    hσ.next (hσ.rebinds name hscope hheld) fun _ => hbehind held held' hheld

omit h in
theorem runs_assignVariable (target : Occurrence) {a a' : Operand}
    (ha : σ.Operands a a') :
    σ.Runs Eq (assignVariable target a) (assignVariable target a') := by
  refine hσ.chains hσ.active fun s s' hscope => ?_
  refine hσ.chains (hσ.looksUp target hscope) fun v v' hvars => ?_
  have hbehind : ∀ b b', σ.Operands b b' → σ.Runs Eq
      (trace 2 fun m => do return "let " ++ target.name ++ " = " ++ (← m.textOf a))
      (trace 2 fun m => do return "let " ++ target.name ++ " = " ++ (← m.textOf a')) :=
    fun _ _ _ => hσ.tracesText _ (by decide) ha
  cases hvars with
  | unbound type | held type _ =>
    exact runs_rebindConverted hσ hscope target.name type ha hbehind

theorem Corresponds.assignSlot (target : Occurrence) {element : Expr}
    (helement : c.Admits number element) {a a' : Operand} (ha : σ.Operands a a') :
    σ.Runs Eq (below.assignSlot target element a) (below'.assignSlot target element a') := by
  refine hσ.chains hσ.active fun s s' hscope => ?_
  refine hσ.chains (hσ.looksUp target hscope) fun v v' hvars => ?_
  have htype : v'.type = v.type := by cases hvars <;> rfl
  dsimp only
  rw [htype]
  refine hσ.chains (runs_readVariable hσ hscope target) fun array array' harrays => ?_
  obtain ⟨u, rfl, rfl⟩ | ⟨i, j, rfl, rfl⟩ := hσ.alike harrays
  · exact hσ.next (hσ.revealsSame harrays) fun _ => hσ.fails trivial
  · cases v.type.isArray with
    | false => exact hσ.next (hσ.revealsSame harrays) fun _ => hσ.fails trivial
    | true =>
      refine hσ.next (h.evaluateInteger hσ hscope helement) fun index => ?_
      refine hσ.next (hσ.revealsSame ha) fun u => ?_
      refine hσ.chains (hσ.convertsKnown u v.type.element) fun content content' hcontent => ?_
      obtain ⟨rfl, hconvert⟩ := hcontent
      obtain ⟨s, rfl⟩ := (Value.conforms_convert hconvert).scalar
      exact hσ.next (hσ.setsSlot index s harrays) fun _ => hσ.tracesText _ (by decide) ha

theorem Corresponds.assign (target : Occurrence) {element : Option Expr}
    (helement : ∀ e ∈ element, c.Admits number e) {a a' : Operand} (ha : σ.Operands a a') :
    σ.Runs Eq (below.assign target element a) (below'.assign target element a') := by
  cases element with
  | none => exact runs_assignVariable hσ target ha
  | some e => exact h.assignSlot hσ target (helement e rfl) ha

omit h in
theorem runs_readInto {s s' : Nat} (hscope : σ.Scopes s s') (target : Occurrence)
    (type : DeclaredType) :
    σ.Runs Eq (readInto s target type) (readInto s' target type) :=
  hσ.next (hσ.reads _ _) fun answer =>
    have hanswer : (Value.string answer).Ordinary := trivial
    runs_rebindConverted hσ hscope target.name type (hσ.value hanswer) fun _ _ hheld =>
      hσ.tracesText _ (by decide) hheld

omit h in
theorem runs_executeInput (target : Occurrence) :
    σ.Runs Eq (executeInput target) (executeInput target) := by
  rw [executeInput_eq]
  refine hσ.chains hσ.active fun s s' hscope => ?_
  refine hσ.chains (hσ.looksUp target hscope) fun v v' hvars => ?_
  have htype : v'.type = v.type := by cases hvars <;> rfl
  rw [htype]
  split
  · exact hσ.fails trivial
  · exact runs_readInto hσ hscope target v.type

omit h in
theorem runs_leaveWith {r r' : Option Operand} (hresults : Option.Rel σ.Operands r r') :
    σ.Runs Eq (leaveWith r) (leaveWith r') :=
  hσ.next hσ.ticks fun _ => hσ.returns hresults

section

variable (hlayout : Layout p c) (hregular : p.forest.Regular)

include hlayout hregular

/-- Branches are tested in order until a guard holds; the last one has none. -/
theorem Corresponds.executeBranches {fallback : Option Nat}
    (hfallback : ∀ j, fallback = some j → ∀ i ∈ p.forest.children j, p.Row c number i)
    {branches : List Nat} (hbranches : ∀ j ∈ branches, c.Covers number j) :
    σ.Runs Eq (executeBranches p.forest below fallback branches)
      (executeBranches p.forest below' fallback branches) := by
  induction branches with
  | nil =>
    unfold Level.executeBranches
    cases fallback with
    | none => exact hσ.gives rfl
    | some j => exact h.executeAll hσ (hfallback j rfl)
  | cons j rest ih =>
    obtain ⟨hj, hrest⟩ := List.forall_mem_cons.mp hbranches
    unfold Level.executeBranches
    cases hnode : p.forest.nodes[j]? with
    | none => exact hσ.fails trivial
    | some node =>
      cases hop : node.operator with
      | elseIf guard =>
        have huses := hj.uses hlayout hnode
        rw [hop] at huses
        simp only [Option.map_some, hop]
        refine hσ.next (h.testGuard hσ huses) fun holds => ?_
        split
        · exact h.executeAll hσ (Program.row_children hlayout hregular hj hnode
            (.inr (by rw [hop]; rfl)))
        · exact ih hrest
      | _ =>
        simp only [Option.map_some, hop]
        exact hσ.fails trivial

/-- By cases on the operator: what is nested in it is executed by the level below. -/
theorem Corresponds.executeNode {i : Nat} (hrow : p.Row c number i) :
    σ.Runs Eq (executeNode p below i) (executeNode p below' i) := by
  refine hσ.next hσ.ticks fun _ => ?_
  obtain ⟨hcovers, node, hnode, -⟩ := hrow
  rw [hnode]
  refine hσ.next (hσ.tracesDepth _ (by decide)) fun _ => ?_
  dsimp only
  have huses := hcovers.uses hlayout hnode
  have hnested : node.operator = .beginning ∨ node.operator.isConditional = true →
      σ.Runs Eq (below.executeAll (p.forest.children i))
        (below'.executeAll (p.forest.children i)) := fun hop =>
    h.executeAll hσ (Program.row_children hlayout hregular hcovers hnode hop)
  cases hop : node.operator with
  | module name inner => exact absurd hop (hcovers.not_module hlayout hnode name inner)
  | beginning => exact hnested (.inl hop)
  | branch guard =>
    rw [hop] at huses
    refine hσ.next (h.testGuard hσ huses) fun holds => ?_
    split
    · exact hnested (.inr (by rw [hop]; rfl))
    · refine h.executeBranches hσ hlayout hregular (fun j hj => ?_) fun j hj =>
        hcovers.branches hlayout hnode (.inl hj)
      obtain ⟨q, hq, hconditional⟩ := hcovers.fallback hlayout hnode hj
      exact Program.row_children hlayout hregular (hcovers.branches hlayout hnode (.inr hj))
        hq (.inr hconditional)
  | loop guard =>
    rw [hop] at huses
    exact hσ.loops (h.testGuard hσ huses) (hnested (.inr (by rw [hop]; rfl)))
  | declaration type name initial =>
    rw [hop] at huses
    exact h.executeDeclaration hσ type name huses
  | assignment target element value =>
    rw [hop] at huses
    obtain ⟨-, helement, hvalue⟩ := huses
    exact hσ.chains hσ.active fun _ _ hscope =>
      hσ.chains (h.evaluate hscope hvalue) fun _ _ ha => h.assign hσ target helement ha
  | input target => exact runs_executeInput hσ target
  | output value =>
    rw [hop] at huses
    exact hσ.chains hσ.active fun _ _ hscope =>
      hσ.chains (h.evaluate hscope huses) fun _ _ ha => hσ.writes ha
  | call name callee arguments =>
    rw [hop] at huses
    obtain ⟨hcallee, harguments⟩ := huses
    refine hσ.chains (hσ.maps fun e he => h.evaluateHere hσ (harguments e he))
      fun operands operands' hoperands => ?_
    exact hσ.chains (h.call hcallee hoperands) fun _ _ _ => hσ.gives rfl
  | giveBack result =>
    rw [hop] at huses
    cases result with
    | none => exact runs_leaveWith hσ .none
    | some e => exact hσ.chains hσ.active fun _ _ hscope =>
        hσ.chains (h.evaluate hscope (huses e rfl)) fun _ _ ha =>
          runs_leaveWith hσ (.some ha)
  | function _ _ | method _ _ | classDeclaration _ _ => exact hσ.gives rfl
  | elseIf _ | elseBranch => exact hσ.fails trivial

end

/-! ## Calls -/

omit h in
/-- Arguments are converted and bound one after the other. -/
theorem runs_bindParameters (parameters : List Parameter) {arguments arguments' : List Operand}
    (hall : List.Forall₂ σ.Operands arguments arguments') {t t' : Variables}
    (htables : σ.Tables t t') :
    σ.Runs σ.Tables (bindParameters parameters arguments t)
      (bindParameters parameters arguments' t') := by
  induction parameters generalizing arguments arguments' t t' with
  | nil => exact hσ.gives htables
  | cons q parameters ih =>
    cases hall with
    | nil => exact hσ.gives htables
    | cons ha hall =>
      exact hσ.chains (hσ.converts ha q.type) fun held held' hheld =>
        hσ.chains (hσ.binds q.type q.name htables hheld) fun _ _ hbound => ih hall hbound

omit h in
/-- The result of a call is converted in its module's name. -/
theorem runs_callResult (hscoped : σ.Scoped p number) (f : FunctionDeclaration)
    {r r' : Option Operand} (hresults : Option.Rel σ.Operands r r') :
    σ.Runs (Option.Rel σ.Operands) (callResult f r) (callResult f r') := by
  unfold callResult
  cases f.result with
  | none => exact hσ.gives .none
  | some type =>
    cases hresults with
    | none => exact hσ.fails trivial
    | some ha =>
      refine hσ.next (hσ.revealsSame ha) fun v => ?_
      dsimp only
      cases hconvert : v.convert type with
      | ok u =>
        have hkeep := hσ.keeps (Value.conforms_convert hconvert).ordinary
        show σ.Runs _ (keep u >>= fun a => pure (some a)) (keep u >>= fun a => pure (some a))
        exact hσ.chains hkeep fun _ _ hkept => hσ.gives (Option.Rel.some hkept)
      | error fault =>
        have hkind := v.told_convert type fault hconvert
        -- nothing follows on a result that is refused
        have hrefused : σ.Runs (fun _ _ => False)
            (fail (fault.ofResult f.fullName) : Exec Value) (fail (fault.ofResult f.fullName)) := by
          cases fault with
          | conversion cause => exact hscoped.refuses _ _
          | numeral reason => exact hσ.fails trivial
          | _ => exact hkind.elim
        exact hσ.chains (hσ.next (hσ.refusals _) fun _ => hrefused) fun _ _ hfalse => hfalse.elim

/-- A call checks its arguments, binds them, and runs the body in a scope of its own. -/
theorem Corresponds.callNode (hscoped : σ.Scoped p number) (hlayout : Layout p c)
    (hregular : p.forest.Regular) {callee : Callee} (hcallee : c.Offers number callee)
    {arguments arguments' : List Operand}
    (hall : List.Forall₂ σ.Operands arguments arguments') :
    σ.Runs (Option.Rel σ.Operands) (callNode p below callee arguments)
      (callNode p below' callee arguments') := by
  obtain ⟨d, hd, hname, hbody⟩ := hcallee.function hlayout hregular
  have henter : σ.Runs (Option.Rel σ.Operands) (enterCall p below (p.function callee) arguments)
      (enterCall p below' (p.function callee) arguments') := by
    unfold enterCall
    rw [← hname]
    refine hσ.chains (hscoped.finds hd) fun s s' hscope => ?_
    refine hσ.chains (runs_bindParameters hσ _ hall hσ.empty) fun t t' htables => ?_
    refine hscoped.enters _ hscope htables fun _ _ _ => ?_
    refine hσ.next (hσ.tracesDepth _ (by decide)) fun _ => ?_
    exact hσ.chains (hscoped.catches _ (h.executeAll hσ hbody)) fun _ _ hresults =>
      runs_callResult hσ hscoped _ hresults
  unfold Level.callNode
  dsimp only
  rw [hall.length_eq]
  split
  · have hrefused : σ.Runs Eq (fail (.execution (.wrongArity (p.function callee).fullName
        (p.function callee).parameters.length arguments'.length)) : Exec PUnit)
        (fail (.execution (.wrongArity (p.function callee).fullName
        (p.function callee).parameters.length arguments'.length))) := hσ.fails trivial
    exact hσ.next hrefused fun _ => henter
  · exact henter

omit h in
/-- The outline is that of the program, and the program is the same. -/
theorem runs_outline (p : Program) :
    σ.Runs Eq (do
      let lines ← lift p.forest.outline
      lines.forM fun line => trace 1 fun _ => .ok ("tree " ++ line) : Exec Unit) (do
      let lines ← lift p.forest.outline
      lines.forM fun line => trace 1 fun _ => .ok ("tree " ++ line)) := by
  refine hσ.next (hσ.lifts p.forest.told_outline) fun lines => ?_
  induction lines with
  | nil => exact hσ.gives rfl
  | cons line lines ih => exact hσ.next (hσ.tracesLine _ (by decide)) fun _ => ih

omit h in
/-- Every level of a running program corresponds to itself. -/
theorem corresponds_running (hscoped : σ.Scoped p number) (hlayout : Layout p c)
    (hregular : p.forest.Regular) :
    ∀ depth, Corresponds σ p c number (running p depth) (running p depth)
  | 0 => corresponds_bottom hσ
  | depth + 1 =>
    have below := corresponds_running hscoped hlayout hregular depth
    { evaluate := fun hscope he => below.evaluateNode hσ hscope he
      execute := fun hrow => below.executeNode hσ hlayout hregular hrow
      call := fun hcallee hall => below.callNode hσ hscoped hlayout hregular hcallee hall }

end Level

end Pseudocode
