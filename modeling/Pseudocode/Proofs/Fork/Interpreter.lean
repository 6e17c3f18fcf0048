import Pseudocode.Proofs.Fork.Steps

/-!
# A running program, twice

If a level of the interpreter does the same in both runs of a fork (`Level.Parallel`), so
does the next one (`parallel_running`).  Expressions and operators have to be in a scope
that the runs see.  Calls do not: a call opens a scope of its own inside the scope of its
module, and from then on nothing leads to the scopes below it on the stack.

That is where callers are left out.  The frames below a call may be anything, and anything
else in the two runs, since the stack is looked at in one place only, the innermost frame
(`parallel_here`), and a name is looked for in a scope and its module and not along the
stack.  `Parallel.enterCall` is the step at which scopes that were hidden stay hidden.
-/

namespace Pseudocode

open Exec Machine Fork

/-- Whatever a level does, it does the same in both runs of a fork, if it is done in
scopes that the runs see.  A call may begin anywhere. -/
structure Level.Parallel (k : Fork) (level : Level) : Prop where
  evaluate : ∀ frames scope e, (∀ id, scope = some id → k.Sees id) →
    k.Parallel frames k.Operands (level.evaluate scope e) (level.evaluate scope e)
  execute : ∀ frames index, k.Active frames →
    k.Parallel frames Eq (level.execute index) (level.execute index)
  call : ∀ frames callee arguments arguments',
    List.Forall₂ k.Operands arguments arguments' →
    k.Parallel frames (Option.Rel k.Operands) (level.call callee arguments)
      (level.call callee arguments')

namespace Level

variable {k : Fork} {frames : List Nat}

/-- At the bottom both runs are too deep. -/
theorem parallel_bottom : bottom.Parallel k where
  evaluate _ _ _ _ := parallel_fail _
  execute _ _ _ := parallel_fail _
  call _ _ _ _ _ := parallel_fail _

/-- Where there is no scope there is none to be seen. -/
theorem sees_none : ∀ id, none = some id → k.Sees id := nofun

/-- A scope that is seen is seen. -/
theorem sees_some {scope : Nat} (h : k.Sees scope) : ∀ id, some scope = some id → k.Sees id :=
  fun _ heq => Option.some.inj heq ▸ h

variable {below : Level} (h : below.Parallel k)

include h

/-! ## Expressions

Operands correspond, and so do the states behind them.  An array is read through cells that
correspond. -/

section

variable {scope : Option Nat} (hscope : ∀ id, scope = some id → k.Sees id)

include hscope

/-- What a variable gives corresponds. -/
theorem Parallel.readVariable (target : Occurrence) :
    k.Parallel frames k.Operands (below.readVariable scope target)
      (below.readVariable scope target) := by
  unfold Level.readVariable
  cases scope with
  | none => exact parallel_fail _
  | some id =>
    refine (parallel_variableIn (hscope id rfl) target).bind fun v v' hvars => ?_
    obtain ⟨-, hbinding⟩ := hvars
    generalize v.binding = binding at hbinding
    generalize v'.binding = binding' at hbinding
    cases hbinding with
    | none => exact parallel_fail _
    | deferred e => exact h.evaluate frames (some id) e hscope
    | held hoperands => exact parallel_pure hoperands

/-- An expression that is read as a truth value gives the same. -/
theorem Parallel.evaluateTruth (e : Expr) :
    k.Parallel frames Eq (below.evaluateTruth scope e) (below.evaluateTruth scope e) :=
  (h.evaluate frames scope e hscope).bind fun _ _ hoperands =>
    (parallel_reveal hoperands).next fun _ => parallel_lift _

/-- An expression that is read as an integer gives the same. -/
theorem Parallel.evaluateInteger (e : Expr) :
    k.Parallel frames Eq (below.evaluateInteger scope e) (below.evaluateInteger scope e) :=
  (h.evaluate frames scope e hscope).bind fun _ _ hoperands =>
    (parallel_reveal hoperands).next fun _ => parallel_settle _ _

/-- A condition gives the same, and evaluates as many operands. -/
theorem Parallel.evaluateCondition (op : Condition) (left right : Expr) :
    k.Parallel frames Eq (below.evaluateCondition scope op left right)
      (below.evaluateCondition scope op left right) := by
  cases op with
  | both =>
    refine (h.evaluateTruth hscope left).next fun holds => ?_
    split
    · exact h.evaluateTruth hscope right
    · exact parallel_pure rfl
  | either =>
    refine (h.evaluateTruth hscope left).next fun holds => ?_
    split
    · exact parallel_pure rfl
    · exact h.evaluateTruth hscope right
  | compare comparison =>
    refine (h.evaluate frames scope left hscope).bind fun a a' ha => ?_
    refine (h.evaluate frames scope right hscope).bind fun b b' hb => ?_
    exact (parallel_reveal ha).next fun _ => (parallel_reveal hb).next fun _ =>
      parallel_lift _

omit h hscope in
/-- Slots of arrays that correspond are the same. -/
theorem parallel_readSlot (name : String) {array array' : Operand}
    (harrays : k.Operands array array') (index : Int) :
    k.Parallel frames k.Operands (readSlot name array index)
      (readSlot name array' index) := by
  refine (parallel_reveal harrays).next fun v => ?_
  split
  · refine (parallel_lift _).next fun slot => ?_
    split
    · exact parallel_fail _
    · exact parallel_pure (.value _)
  · exact parallel_fail _

/-- Every expression of the next level gives operands that correspond. -/
theorem Parallel.evaluateNode (e : Expr) :
    k.Parallel frames k.Operands (below.evaluateNode scope e)
      (below.evaluateNode scope e) := by
  refine (parallel_tick _).next fun _ => ?_
  cases e with
  | literal v => exact parallel_pure (.value v)
  | read target => exact h.readVariable hscope target
  | slot target index =>
    refine (h.readVariable hscope target).bind fun array array' harrays => ?_
    exact (h.evaluateInteger hscope index).next fun _ => parallel_readSlot _ harrays _
  | sign symbol operand =>
    refine (h.evaluate frames scope operand hscope).bind fun a a' ha => ?_
    exact (parallel_reveal ha).next fun _ => (parallel_lift _).next fun _ =>
      parallel_pure (.value _)
  | arithmetic op left right =>
    refine (h.evaluate frames scope left hscope).bind fun a a' ha => ?_
    refine (h.evaluate frames scope right hscope).bind fun b b' hb => ?_
    refine (parallel_reveal ha).next fun _ => ?_
    refine (parallel_reveal hb).next fun _ => ?_
    refine (parallel_lift _).next fun _ => ?_
    exact parallel_pure (.value _)
  | condition op left right =>
    exact (h.evaluateCondition hscope op left right).next fun _ => parallel_pure (.value _)
  | call name callee arguments =>
    have hevaluate := fun e => h.evaluate frames scope e hscope
    refine (parallel_mapM hevaluate arguments).bind fun operands operands' hoperands => ?_
    refine (h.call frames callee operands operands' hoperands).bind
      fun result result' hresults => ?_
    cases hresults with
    | some hresult => exact parallel_pure hresult
    | none => exact parallel_fail _
  | blank => exact parallel_fail _

end

/-! ## Operators

What is executed can only reach what can be seen, since names are looked up along scopes that
can be seen. -/

section

variable (hactive : k.Active frames)

include hactive

/-- Operators one after another do the same. -/
theorem Parallel.executeAll : ∀ places : List Nat,
    k.Parallel frames Eq (below.executeAll places) (below.executeAll places)
  | [] => parallel_tick _
  | index :: rest =>
    (h.execute frames index hactive).next fun _ => Parallel.executeAll rest

/-- An expression in the innermost scope. -/
theorem Parallel.evaluateHere (e : Expr) :
    k.Parallel frames k.Operands (activeScope >>= fun scope => below.evaluate (some scope) e)
      (activeScope >>= fun scope => below.evaluate (some scope) e) :=
  parallel_here hactive fun scope hseen =>
    h.evaluate frames (some scope) e (sees_some hseen)

/-- The guard of a loop gives the same. -/
theorem Parallel.testGuard (guard : Expr) :
    k.Parallel frames Eq (below.testGuard guard) (below.testGuard guard) := by
  refine parallel_here hactive fun scope hseen => ?_
  refine (h.evaluateInteger (sees_some hseen) guard).next fun _ => ?_
  exact (parallel_trace 3 fun _ _ _ => rfl).next fun _ => parallel_pure rfl

omit h in
theorem parallel_declareAs (t : DeclaredType) (name : String) {a a' : Operand}
    (ha : k.Operands a a') :
    k.Parallel frames Eq (declareAs t name a) (declareAs t name a') := by
  intro m n hpaired
  refine (agree_convert hpaired ha t).bind fun held held' m₁ n₁ hheld hpaired₁ => ?_
  obtain ⟨hfresh, -⟩ := hheld
  refine (agree_declareHere hpaired₁ hactive t name hfresh).bind
    fun _ _ m₂ n₂ _ hpaired₂ => ?_
  exact parallel_traceText 2 _ hfresh.1 m₂ n₂ hpaired₂

/-- A declaration does the same. -/
theorem Parallel.executeDeclaration (t : DeclaredType) (name : String)
    (initial : Option Expr) :
    k.Parallel frames Eq (below.executeDeclaration t name initial)
      (below.executeDeclaration t name initial) := by
  cases initial with
  | some e =>
    rw [executeDeclaration_some]
    refine parallel_here hactive fun scope hseen => ?_
    exact (h.evaluate frames (some scope) e (sees_some hseen)).bind
      fun a a' ha => parallel_declareAs hactive t name ha
  | none =>
    rw [executeDeclaration_none]
    exact (parallel_lift _).next fun v => parallel_declareAs hactive t name (.value v)

omit h in
/-- An assignment to a variable does the same. -/
theorem parallel_assignVariable (target : Occurrence) {a a' : Operand}
    (hoperands : k.Operands a a') :
    k.Parallel frames Eq (assignVariable target a) (assignVariable target a') := by
  refine parallel_here hactive fun scope hseen => ?_
  refine (parallel_variableIn hseen target).bind fun v v' hvars => ?_
  rw [hvars.type]
  intro m n hpaired
  refine (agree_convert hpaired hoperands v.type).bind
    fun held held' m₁ n₁ hheld hpaired₁ => ?_
  refine (agree_rebind hpaired₁ hseen target.name hheld.1).bind
    fun _ _ m₂ n₂ _ hpaired₂ => ?_
  exact parallel_traceText 2 _ hoperands m₂ n₂ hpaired₂

/-- An assignment to a slot does the same, in cells that correspond. -/
theorem Parallel.assignSlot (target : Occurrence) (element : Expr) {a a' : Operand}
    (hoperands : k.Operands a a') :
    k.Parallel frames Eq (below.assignSlot target element a)
      (below.assignSlot target element a') := by
  refine parallel_here hactive fun scope hseen => ?_
  refine (parallel_variableIn hseen target).bind fun v v' hvars => ?_
  dsimp only
  rw [hvars.type]
  refine (h.readVariable (sees_some hseen) target).bind fun array array' harrays => ?_
  cases harrays with
  | value v => exact (parallel_reveal (.value v)).next fun _ => parallel_fail _
  | cell hcells =>
    cases v.type.isArray with
    | false => exact (parallel_reveal (.cell hcells)).next fun _ => parallel_fail _
    | true =>
      refine (h.evaluateInteger (sees_some hseen) element).next fun index => ?_
      refine (parallel_reveal hoperands).next fun _ => (parallel_settle _ _).next fun content => ?_
      refine (parallel_setSlot hcells index content).next fun _ => ?_
      exact parallel_traceText 2 _ hoperands

/-- An assignment does the same, wherever it goes. -/
theorem Parallel.assign (target : Occurrence) (element : Option Expr) {a a' : Operand}
    (hoperands : k.Operands a a') :
    k.Parallel frames Eq (below.assign target element a) (below.assign target element a') := by
  cases element with
  | none => exact parallel_assignVariable hactive target hoperands
  | some e => exact h.assignSlot hactive target e hoperands

omit h hactive in
/-- The same answer is converted and bound. -/
theorem parallel_readInto {scope : Nat} (hseen : k.Sees scope) (target : Occurrence)
    (type : DeclaredType) :
    k.Parallel frames Eq (readInto scope target type) (readInto scope target type) := by
  refine (parallel_nextAnswer _ _).next fun answer m n hpaired => ?_
  refine (agree_convert hpaired (.value _) type).bind
    fun held held' m₁ n₁ hheld hpaired₁ => ?_
  refine (agree_rebind hpaired₁ hseen target.name hheld.1).bind
    fun _ _ m₂ n₂ _ hpaired₂ => ?_
  exact parallel_traceText 2 _ hheld.1.1 m₂ n₂ hpaired₂

omit h in
/-- An `input` takes the same answer. -/
theorem parallel_executeInput (target : Occurrence) :
    k.Parallel frames Eq (executeInput target) (executeInput target) := by
  rw [executeInput_eq]
  refine parallel_here hactive fun scope hseen => ?_
  refine (parallel_variableIn hseen target).bind fun v v' hvars => ?_
  rw [hvars.type]
  split
  · exact parallel_fail _
  · exact parallel_readInto hseen target v.type

omit h hactive in
/-- Results that correspond leave. -/
theorem parallel_leaveWith {r r' : Option Operand} (hresults : Option.Rel k.Operands r r') :
    k.Parallel frames Eq (leaveWith r) (leaveWith r') :=
  (parallel_tick _).next fun _ _ _ hpaired => .returned hresults hpaired

omit h hactive in
/-- Operands that correspond are written with the same text. -/
theorem parallel_write {a a' : Operand} (hoperands : k.Operands a a') :
    k.Parallel frames Eq (write a) (write a') := by
  have hwrite : k.Parallel frames Eq
      (get >>= fun m : Machine => lift (m.textOf a) >>= fun text => emit (.written a text))
      (get >>= fun m : Machine => lift (m.textOf a') >>= fun text =>
        emit (.written a' text)) := by
    refine parallel_get fun m n hpaired => ?_
    rw [hpaired.textOf_eq hoperands]
    exact (parallel_lift _).next fun text => parallel_emit (.written hoperands text)
  exact hwrite

/-- The same branch of a conditional is executed. -/
theorem Parallel.executeBranches (forest : Forest Operator) (fallback : Option Nat) :
    ∀ branches, k.Parallel frames Eq (executeBranches forest below fallback branches)
      (executeBranches forest below fallback branches)
  | [] => by
    unfold Level.executeBranches
    cases fallback with
    | none => exact parallel_pure rfl
    | some index => exact h.executeAll hactive _
  | index :: rest => by
    unfold Level.executeBranches
    split
    · refine (h.testGuard hactive _).next fun holds => ?_
      split
      · exact h.executeAll hactive _
      · exact Parallel.executeBranches forest fallback rest
    · exact parallel_fail _

end

/-- A module runs in a scope of its own, which goes on record. -/
theorem Parallel.executeModule (name : String) (places : List Nat) :
    k.Parallel frames Eq (within none name Variables.empty fun scope => do
        modify fun m => m.recordModule name scope
        below.executeAll places)
      (within none name Variables.empty fun scope => do
        modify fun m => m.recordModule name scope
        below.executeAll places) := by
  intro m n hpaired
  refine Agree.within hpaired sees_none name tables_empty
    (fun _ hholds => absurd hholds Variables.not_holds_empty) fun hseen hentered => ?_
  have hlt : m.environment.scopes.size <
      (m.environment.enter none name Variables.empty).2.scopes.size := by
    rw [Environment.size_enter]
    exact Nat.lt_succ_self _
  have houter : ((m.environment.enter none name Variables.empty).2.scope
      m.environment.scopes.size).outer = [] := Environment.outer_entering
  have hrecorded := hentered.record name hseen hlt houter
  have hactive : k.Active (m.environment.scopes.size :: frames) := sees_some hseen
  exact h.executeAll hactive places _ _ hrecorded

/-- Every operator of the next level does the same. -/
theorem Parallel.executeNode (hactive : k.Active frames) (p : Program) (index : Nat) :
    k.Parallel frames Eq (executeNode p below index) (executeNode p below index) := by
  refine (parallel_tick _).next fun _ => ?_
  cases p.forest.nodes[index]? with
  | none => exact parallel_fail _
  | some node =>
    have hline : ∀ m n, k.Paired frames m n →
        (Except.ok ("exec " ++ Captioned.line node.operator ++ " depth="
          ++ toString n.frames.length) : Except Fault String) =
        .ok ("exec " ++ Captioned.line node.operator ++ " depth="
          ++ toString m.frames.length) := by
      intro m n hpaired
      rw [hpaired.frames, hpaired.frames_eq]
    refine (parallel_trace 1 hline).next fun _ => ?_
    have hnested := h.executeAll hactive (p.forest.children index)
    dsimp only
    cases node.operator with
    | module name number => exact h.executeModule name _
    | beginning => exact hnested
    | branch guard =>
      refine (h.testGuard hactive guard).next fun holds => ?_
      split
      · exact hnested
      · exact h.executeBranches hactive _ _ _
    | loop guard => exact parallel_loop (h.testGuard hactive guard) hnested
    | declaration t name initial => exact h.executeDeclaration hactive t name initial
    | assignment target element value =>
      refine parallel_here hactive fun scope hseen => ?_
      refine (h.evaluate frames (some scope) value (sees_some hseen)).bind fun a a' ha => ?_
      exact h.assign hactive target element ha
    | input target => exact parallel_executeInput hactive target
    | output value =>
      refine parallel_here hactive fun scope hseen => ?_
      exact (h.evaluate frames (some scope) value (sees_some hseen)).bind
        fun a a' ha => parallel_write ha
    | call name callee arguments =>
      refine (parallel_mapM (h.evaluateHere hactive) arguments).bind
        fun operands operands' hoperands => ?_
      exact (h.call frames callee operands operands' hoperands).bind
        fun _ _ _ => parallel_pure rfl
    | giveBack result =>
      cases result with
      | none => exact parallel_leaveWith .none
      | some e =>
        refine parallel_here hactive fun scope hseen => ?_
        exact (h.evaluate frames (some scope) e (sees_some hseen)).bind
          fun a a' ha => parallel_leaveWith (.some ha)
    | function _ _ | method _ _ | classDeclaration _ _ => exact parallel_pure rfl
    | elseIf _ | elseBranch => exact parallel_fail _

/-! ## Calls

A call may be that of a function whose callers cannot be seen at all: its scope lies inside the
module's, and that one can always be seen. -/

omit h in
/-- The parameters of a call are bound to arrays that no variable holds. -/
theorem agree_bindParameters {m n : Machine} (hpaired : k.Paired frames m n) :
    ∀ (parameters : List Parameter) {arguments arguments' : List Operand},
      List.Forall₂ k.Operands arguments arguments' → ∀ {bound bound' : Variables},
      k.Tables bound bound' → (∀ address, bound.Holds address → m.Free address) →
      k.Agree frames (fun m' t t' => k.Tables t t' ∧
          ∀ address, t.Holds address → m'.Free address)
        (bindParameters parameters arguments bound m)
        (bindParameters parameters arguments' bound' n) := by
  intro parameters
  induction parameters generalizing m n with
  | nil => exact fun _ bound bound' htables hfree => .ok ⟨htables, hfree⟩ hpaired
  | cons q parameters ih =>
    intro arguments arguments' hall bound bound' htables hfree
    cases hall with
    | nil => exact .ok ⟨htables, hfree⟩ hpaired
    | cons ha hall =>
      unfold bindParameters
      refine (agree_convert hpaired ha q.type).bind fun held held' m₁ n₁ hheld hpaired₁ => ?_
      obtain ⟨hfresh, hstill⟩ := hheld
      unfold Table.declare
      rw [htables.has]
      split
      · rw [htables.kind]
        exact .fault _ hpaired₁
      · refine ih hpaired₁ hall (htables.append ⟨rfl, .held hfresh.1⟩) fun address hholds => ?_
        obtain hholds | hbinding := Variables.holds_append hholds
        · exact hstill address (hfree address hholds)
        · cases hbinding
          exact hfresh.2 address rfl

omit h in
/-- Results that correspond are converted to results that do. -/
theorem parallel_callResult (f : FunctionDeclaration) {result result' : Option Operand}
    (hresults : Option.Rel k.Operands result result') :
    k.Parallel frames (Option.Rel k.Operands) (callResult f result)
      (callResult f result') := by
  unfold callResult
  cases f.result with
  | none => exact parallel_pure .none
  | some type =>
    cases hresults with
    | none => exact parallel_fail _
    | some hoperands =>
      refine (parallel_reveal hoperands).next fun v => (parallel_settle _ _).next fun v => ?_
      exact (parallel_keep v).bind fun a a' ha => parallel_pure (.some ha)

/-- A call does the same, whatever is on the stack below it. -/
theorem Parallel.enterCall (p : Program) (f : FunctionDeclaration)
    {arguments arguments' : List Operand}
    (hall : List.Forall₂ k.Operands arguments arguments') :
    k.Parallel frames (Option.Rel k.Operands) (enterCall p below f arguments)
      (enterCall p below f arguments') := by
  refine (parallel_moduleScope f.module).bind fun module _ hmodule m n hpaired => ?_
  obtain ⟨rfl, hseen⟩ := hmodule
  have hbound := agree_bindParameters hpaired f.parameters hall tables_empty
    fun _ hholds => absurd hholds Variables.not_holds_empty
  refine hbound.bind fun bound bound' m₁ n₁ hbound hpaired₁ => ?_
  refine Agree.within hpaired₁ (sees_some hseen) f.fullName hbound.1 hbound.2
    fun hscope hentered => ?_
  have hactive : k.Active (m₁.environment.scopes.size :: frames) := sees_some hscope
  have hline : ∀ m n, k.Paired (m₁.environment.scopes.size :: frames) m n →
      (Except.ok ("call " ++ f.fullName ++ " depth=" ++ toString n.frames.length)
        : Except Fault String) =
      .ok ("call " ++ f.fullName ++ " depth=" ++ toString m.frames.length) := by
    intro m n hpaired
    rw [hpaired.frames, hpaired.frames_eq]
  refine ((parallel_trace 2 hline).next fun _ => ?_) _ _ hentered
  refine (parallel_runBody f.fullName (h.executeAll hactive _)).bind
    fun result result' hresults => ?_
  exact parallel_callResult f hresults

/-- Every call of the next level does the same. -/
theorem Parallel.callNode (p : Program) (callee : Callee)
    {arguments arguments' : List Operand}
    (hall : List.Forall₂ k.Operands arguments arguments') :
    k.Parallel frames (Option.Rel k.Operands) (callNode p below callee arguments)
      (callNode p below callee arguments') := by
  unfold Level.callNode
  dsimp only
  rw [hall.length_eq]
  split
  · exact (parallel_fail _).next fun _ => h.enterCall p _ hall
  · exact h.enterCall p _ hall

end Level

/-- Every level of a running program does the same in both runs of a fork. -/
theorem parallel_running (k : Fork) (p : Program) :
    ∀ depth, (Level.running p depth).Parallel k
  | 0 => Level.parallel_bottom
  | depth + 1 =>
    have below := parallel_running k p depth
    { evaluate := fun _ _ e hscope => below.evaluateNode hscope e
      execute := fun _ index hactive => below.executeNode hactive p index
      call := fun _ callee _ _ hall => below.callNode p callee hall }

/-- A whole run, from states without frames. -/
theorem parallel_run (k : Fork) (p : Program) : k.Parallel [] Eq p.run p.run := by
  have houtline : k.Parallel [] Eq p.traceOutline p.traceOutline := by
    refine parallel_get fun m n hpaired => ?_
    have hverbosity : n.verbosity = m.verbosity := by rw [hpaired.rest]
    rw [hverbosity]
    split
    · exact (parallel_lift _).next fun lines =>
        parallel_forM (fun _ => parallel_trace 1 fun _ _ _ => rfl) lines
    · exact parallel_pure rfl
  have hactive : k.Active [] := nofun
  refine houtline.next fun _ => parallel_closeTrace ?_
  exact parallel_forM (fun index => (parallel_running k p levelLimit).execute [] index hactive) _

end Pseudocode
