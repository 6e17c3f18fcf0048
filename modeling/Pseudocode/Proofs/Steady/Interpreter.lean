import Pseudocode.Proofs.Steady

/-!
# A running program is steady

The interpreter is a tower of levels, each built on the one below.  If a level
can only evaluate, execute and call steadily (`Level.Steady`), so can the next
one, for every program and at every place of its forest (`steady_running`).
Nothing here depends on how the program was built.

There is one lemma for each piece of the interpreter, in the order of its definition:
expressions, operators, calls.  Each opens one definition and puts the pieces below it
together.  Besides being steady, an expression spends a tick (`evaluateNode_spends`), which
is what a loop needs of its guard.
-/

namespace Pseudocode

open Exec Machine

/-- Whatever a level does, it does steadily; and it does not evaluate for
nothing, which bounds the rounds of a loop. -/
structure Level.Steady (level : Level) : Prop where
  evaluate : ∀ scope e, (level.evaluate scope e).Steady
  evaluate_spends : ∀ scope e, (level.evaluate scope e).Spends
  execute : ∀ index, (level.execute index).Steady
  call : ∀ callee arguments, (level.call callee arguments).Steady

namespace Level

/-- At the bottom everything is too deep, and so steady. -/
theorem steady_bottom : bottom.Steady where
  evaluate _ _ := steady_fail _
  evaluate_spends _ _ := fun _ _ _ _ h => nomatch h
  execute _ := steady_fail _
  call _ _ := steady_fail _

variable {below : Level} (h : below.Steady)

include h

/-! ## Expressions -/

/-- To read a variable is steady, whatever it is bound to. -/
theorem Steady.readVariable (scope : Option Nat) (target : Occurrence) :
    (below.readVariable scope target).Steady := by
  unfold Level.readVariable
  cases scope with
  | none => exact steady_fail _
  | some id =>
    refine (steady_variableIn id target).bind fun v => ?_
    split
    · exact steady_fail _
    · exact steady_pure _
    · exact h.evaluate _ _

omit h in
/-- To read a slot is steady. -/
theorem steady_readSlot (name : String) (array : Operand) (index : Int) :
    (readSlot name array index).Steady := by
  refine (steady_reveal array).bind fun v => ?_
  split
  · refine (steady_lift _).bind fun slot => ?_
    split
    · exact steady_fail _
    · exact steady_pure _
  · exact steady_fail _

/-- An expression that is read as a truth value is steady. -/
theorem Steady.evaluateTruth (scope : Option Nat) (e : Expr) :
    (below.evaluateTruth scope e).Steady :=
  (h.evaluate scope e).bind fun operand =>
    (steady_reveal operand).bind fun _ => steady_lift _

/-- An expression that is read as an integer is steady. -/
theorem Steady.evaluateInteger (scope : Option Nat) (e : Expr) :
    (below.evaluateInteger scope e).Steady :=
  (h.evaluate scope e).bind fun operand =>
    (steady_reveal operand).bind fun _ => steady_settle _ _

/-- A condition is steady, whether its second operand is evaluated or not. -/
theorem Steady.evaluateCondition (scope : Option Nat) (op : Condition)
    (left right : Expr) :
    (below.evaluateCondition scope op left right).Steady := by
  cases op with
  | both =>
    refine (h.evaluateTruth scope left).bind fun holds => ?_
    split
    · exact h.evaluateTruth scope right
    · exact steady_pure _
  | either =>
    refine (h.evaluateTruth scope left).bind fun holds => ?_
    split
    · exact steady_pure _
    · exact h.evaluateTruth scope right
  | compare comparison =>
    refine (h.evaluate scope left).bind fun a => ?_
    refine (h.evaluate scope right).bind fun b => ?_
    refine (steady_reveal a).bind fun _ => ?_
    refine (steady_reveal b).bind fun _ => ?_
    exact steady_lift _

/-- An expression behind the tick that it begins with. -/
theorem Steady.evaluateBehindTick (scope : Option Nat) (e : Expr) :
    ∃ x : Exec Operand, below.evaluateNode scope e = (tick >>= fun _ => x) ∧
      x.Steady := by
  refine ⟨_, rfl, ?_⟩
  -- one case per kind of expression, its parts in the order of evaluation
  cases e with
  | literal v => exact steady_pure _
  | read target => exact h.readVariable scope target
  | slot target index =>
    exact (h.readVariable scope target).bind fun _ =>
      (h.evaluateInteger scope index).bind fun _ => steady_readSlot _ _ _
  | sign symbol operand =>
    refine (h.evaluate scope operand).bind fun a => ?_
    refine (steady_reveal a).bind fun _ => ?_
    exact (steady_lift _).bind fun _ => steady_pure _
  | arithmetic op left right =>
    refine (h.evaluate scope left).bind fun a => ?_
    refine (h.evaluate scope right).bind fun b => ?_
    refine (steady_reveal a).bind fun _ => ?_
    refine (steady_reveal b).bind fun _ => ?_
    exact (steady_lift _).bind fun _ => steady_pure _
  | condition op left right =>
    exact (h.evaluateCondition scope op left right).bind fun _ => steady_pure _
  | call name callee arguments =>
    refine (steady_mapM (h.evaluate scope) arguments).bind fun operands => ?_
    refine (h.call callee operands).bind fun result => ?_
    cases result with
    | some operand => exact steady_pure _
    | none => exact steady_fail _
  | blank => exact steady_fail _

/-- Every expression of the next level is steady. -/
theorem Steady.evaluateNode (scope : Option Nat) (e : Expr) :
    (below.evaluateNode scope e).Steady := by
  obtain ⟨x, heq, hx⟩ := h.evaluateBehindTick scope e
  rw [heq]
  exact (steady_tick _).bind fun _ => hx

/-- Every expression spends a tick before anything else. -/
theorem Steady.evaluateNode_spends (scope : Option Nat) (e : Expr) :
    (below.evaluateNode scope e).Spends := by
  obtain ⟨x, heq, hx⟩ := h.evaluateBehindTick scope e
  rw [heq]
  exact spends_tick_bind hx

/-! ## Operators -/

/-- Operators one after another are steady. -/
theorem Steady.executeAll : ∀ places : List Nat, (below.executeAll places).Steady
  | [] => steady_tick _
  | index :: rest => (h.execute index).bind fun _ => Steady.executeAll rest

/-- The guard of a loop is steady. -/
theorem Steady.testGuard (guard : Expr) : (below.testGuard guard).Steady := by
  refine steady_activeScope.bind fun _ => ?_
  refine (h.evaluateInteger _ _).bind fun _ => ?_
  exact (steady_trace fun _ _ => rfl).bind fun _ => steady_pure _

/-- An expression that is read as an integer spends a tick. -/
theorem Steady.evaluateInteger_spends (scope : Option Nat) (e : Expr) :
    (below.evaluateInteger scope e).Spends :=
  (h.evaluate_spends scope e).bind (h.evaluate scope e) fun operand =>
    (steady_reveal operand).bind fun _ => steady_settle _ _

/-- The guard of a loop spends a tick. -/
theorem Steady.testGuard_spends (guard : Expr) : (below.testGuard guard).Spends := by
  refine steady_activeScope.bind_spends fun _ => ?_
  refine (h.evaluateInteger_spends _ _).bind (h.evaluateInteger _ _) fun _ => ?_
  exact (steady_trace fun _ _ => rfl).bind fun _ => steady_pure _

/-- An expression in the innermost scope. -/
theorem Steady.evaluateHere (e : Expr) :
    (activeScope >>= fun scope => below.evaluate (some scope) e).Steady :=
  steady_activeScope.bind fun _ => h.evaluate _ _

omit h in
theorem steady_declareAs (t : DeclaredType) (name : String) (operand : Operand) :
    (declareAs t name operand).Steady :=
  (steady_convert operand t).bind fun held =>
    (steady_declareHere t name held).bind fun _ => steady_trace fun _ _ => rfl

/-- A declaration is steady, with an initial value or without. -/
theorem Steady.executeDeclaration (t : DeclaredType) (name : String)
    (initial : Option Expr) :
    (below.executeDeclaration t name initial).Steady := by
  cases initial with
  | some e =>
    rw [executeDeclaration_some]
    exact steady_activeScope.bind fun _ => (h.evaluate _ _).bind (steady_declareAs t name)
  | none =>
    rw [executeDeclaration_none]
    exact (steady_lift _).bind fun _ => steady_declareAs t name _

omit h in
/-- An assignment to a variable is steady. -/
theorem steady_assignVariable (target : Occurrence) (value : Operand) :
    (assignVariable target value).Steady := by
  refine steady_activeScope.bind fun _ => ?_
  refine (steady_variableIn _ target).bind fun _ => ?_
  refine (steady_convert value _).bind fun _ => ?_
  refine (steady_rebind _ _ _).bind fun _ => ?_
  exact steady_trace fun _ _ => rfl

/-- An assignment to a slot is steady. -/
theorem Steady.assignSlot (target : Occurrence) (element : Expr)
    (value : Operand) : (below.assignSlot target element value).Steady := by
  refine steady_activeScope.bind fun _ => ?_
  refine (steady_variableIn _ target).bind fun _ => ?_
  refine (h.readVariable _ target).bind fun array => ?_
  split
  · refine (h.evaluateInteger _ _).bind fun _ => (steady_reveal value).bind fun _ => ?_
    refine (steady_settle _ _).bind fun content => (quiet_setSlot _ _ _).steady.bind fun _ => ?_
    exact steady_trace fun _ _ => rfl
  · exact (steady_reveal _).bind fun _ => steady_fail _

/-- An assignment is steady, wherever it goes. -/
theorem Steady.assign (target : Occurrence) (element : Option Expr)
    (value : Operand) : (below.assign target element value).Steady := by
  cases element with
  | none => exact steady_assignVariable target value
  | some e => exact h.assignSlot target e value

omit h in
/-- An answer that is converted and bound is steady. -/
theorem steady_readInto (scope : Nat) (target : Occurrence) (type : DeclaredType) :
    (readInto scope target type).Steady :=
  (steady_nextAnswer _ _).bind fun _ => (steady_convert _ _).bind fun _ =>
    (steady_rebind _ _ _).bind fun _ => steady_trace fun _ _ => rfl

omit h in
/-- An `input` is steady. -/
theorem steady_executeInput (target : Occurrence) :
    (executeInput target).Steady := by
  rw [executeInput_eq]
  refine steady_activeScope.bind fun scope => (steady_variableIn scope target).bind
    fun v => ?_
  split
  · exact steady_fail _
  · exact steady_readInto scope target v.type

omit h in
/-- The result leaves as a halt, which keeps frames like any other. -/
theorem steady_leaveWith (result : Option Operand) : (leaveWith result).Steady :=
  (steady_tick _).bind fun _ => (quiet_returned result).steady

omit h in
/-- An `output` is steady. -/
theorem steady_write (operand : Operand) : (write operand).Steady := by
  have hwrite : (get >>= fun m : Machine => lift (m.textOf operand) >>= fun text =>
      emit (.written operand text)).Steady :=
    steady_get (fun _ => (steady_lift _).bind fun _ => steady_emit _) fun _ _ => rfl
  exact hwrite

/-- The further branches of a conditional are steady. -/
theorem Steady.executeBranches (forest : Forest Operator) (fallback : Option Nat) :
    ∀ branches, (executeBranches forest below fallback branches).Steady
  | [] => by
    unfold Level.executeBranches
    cases fallback with
    | none => exact steady_pure ()
    | some index => exact h.executeAll _
  | index :: rest => by
    unfold Level.executeBranches
    split
    · refine (h.testGuard _).bind fun holds => ?_
      split
      · exact h.executeAll _
      · exact Steady.executeBranches forest fallback rest
    · exact steady_fail _

/-- Every operator of the next level is steady. -/
theorem Steady.executeNode (p : Program) (index : Nat) :
    (executeNode p below index).Steady := by
  refine (steady_tick _).bind fun _ => ?_
  cases p.forest.nodes[index]? with
  | none => exact steady_fail _
  | some node =>
    refine (steady_trace fun _ _ => rfl).bind fun _ => ?_
    have hnested := h.executeAll (p.forest.children index)
    dsimp only
    cases node.operator with
    | module name number =>
      have hrecord : ∀ scope, (modify fun m => Machine.recordModule m name scope
          : Exec Unit).Steady := fun scope => Quiet.steady <|
        quiet_modify (fun _ => ⟨rfl, rfl⟩) (fun _ => rfl) fun _ _ => rfl
      exact steady_within fun scope => (hrecord scope).bind fun _ => hnested
    | beginning => exact hnested
    | branch guard =>
      refine (h.testGuard guard).bind fun holds => ?_
      split
      · exact hnested
      · exact h.executeBranches _ _ _
    | loop guard =>
      -- the guard is an expression, so each round uses up a tick
      exact steady_loop (h.testGuard_spends guard) (h.testGuard guard) hnested
    | declaration t name initial => exact h.executeDeclaration t name initial
    | assignment target element value =>
      exact steady_activeScope.bind fun _ => (h.evaluate _ _).bind fun _ =>
        h.assign _ _ _
    | input target => exact steady_executeInput target
    | output value =>
      exact steady_activeScope.bind fun _ => (h.evaluate _ _).bind fun _ =>
        steady_write _
    | call name callee arguments =>
      exact (steady_mapM h.evaluateHere arguments).bind fun operands =>
        (h.call callee operands).bind fun _ => steady_pure ()
    | giveBack result =>
      cases result with
      | none => exact steady_leaveWith none
      | some e =>
        exact steady_activeScope.bind fun _ => (h.evaluate _ _).bind fun _ =>
          steady_leaveWith _
    | function _ _ | method _ _ | classDeclaration _ _ => exact steady_pure ()
    | elseIf _ | elseBranch => exact steady_fail _

/-! ## Calls -/

omit h in
/-- To convert arguments is steady. -/
theorem steady_bindParameters : ∀ parameters arguments bound,
    (bindParameters parameters arguments bound).Steady
  | [], _, _ => steady_pure _
  | _ :: _, [], _ => steady_pure _
  | p :: parameters, a :: arguments, _ =>
    (steady_convert a p.type).bind fun _ => (steady_lift _).bind fun _ =>
      steady_bindParameters parameters arguments _

omit h in
/-- To convert a result is steady. -/
theorem steady_callResult (f : FunctionDeclaration) (result : Option Operand) :
    (callResult f result).Steady := by
  unfold callResult
  cases f.result with
  | none => exact steady_pure _
  | some type =>
    cases result with
    | none => exact steady_fail _
    | some operand =>
      refine (steady_reveal operand).bind fun v => (steady_settle _ _).bind fun v => ?_
      exact (quiet_keep v).steady.bind fun _ => steady_pure _

/-- A call keeps the frames: the scope that it opens is closed again. -/
theorem Steady.enterCall (p : Program) (f : FunctionDeclaration)
    (arguments : List Operand) : (enterCall p below f arguments).Steady := by
  refine (steady_moduleScope _).bind fun _ => ?_
  refine (steady_bindParameters _ _ _).bind fun _ => ?_
  refine steady_within fun _ => ?_
  refine (steady_trace fun _ _ => rfl).bind fun _ => ?_
  exact (steady_runBody (h.executeAll _) _).bind fun _ => steady_callResult _ _

/-- Every call of the next level is steady. -/
theorem Steady.callNode (p : Program) (callee : Callee) (arguments : List Operand) :
    (callNode p below callee arguments).Steady := by
  have hcall := h.enterCall p (p.function callee) arguments
  unfold Level.callNode
  dsimp only
  split
  · exact (steady_fail _).bind fun _ => hcall
  · exact hcall

end Level

open Level in
/-- Every level of a running program is steady. -/
theorem steady_running (p : Program) : ∀ depth, (Level.running p depth).Steady
  | 0 => steady_bottom
  | depth + 1 =>
    have below := steady_running p depth
    { evaluate := below.evaluateNode
      evaluate_spends := below.evaluateNode_spends
      execute := below.executeNode p
      call := below.callNode p }

theorem steady_traceOutline (p : Program) : p.traceOutline.Steady := by
  refine steady_get (fun m => ?_) fun _ _ => rfl
  split
  · exact (steady_lift _).bind fun lines =>
      steady_forM (fun _ => steady_trace fun _ _ => rfl) lines
  · exact steady_pure ()

/-- A whole run is steady. -/
theorem steady_run (p : Program) : p.run.Steady :=
  (steady_traceOutline p).bind fun _ =>
    steady_closeTrace (steady_forM (steady_running p levelLimit).execute _)

end Pseudocode
