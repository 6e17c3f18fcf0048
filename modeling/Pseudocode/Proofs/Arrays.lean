import Pseudocode.Proofs.Ownership.Interpreter

/-!
# Array variables own their arrays

In every state of a run each array is that of one variable (`Program.Reaches.owned`), so
setting a slot of an array shows in one variable only.  An expression without calls
changes nothing at all but ticks, so neither does anything else in a slot assignment
whose expressions are such (`Level.executeNode_slot`).

An assignment to a slot looks the variable up, takes its array, and evaluates the index then
(`assignSlot_ok`).  If the index makes no call the array is still the variable's when it is
written to, and the slot that is set is a slot of the variable: `Machine.SetsSlot` says
which, and that nothing else in the state differs.

What evaluation has in common with its steps is shown by one walk over expressions
(`inherited_evaluate`), which takes the property as a parameter: to change nothing
(`Exec.Idle`) is one such property, and others follow in later modules.
-/

namespace Pseudocode

open Exec Machine

/-- Whether no call is made to evaluate an expression. -/
def Expr.isCallFree : Expr → Bool
  | literal _ | read _ | blank => true
  | slot _ index => index.isCallFree
  | sign _ operand => operand.isCallFree
  | arithmetic _ left right | condition _ left right => left.isCallFree && right.isCallFree
  | call .. => false

/-- The value of the variable of a name in a scope, if there is such a variable. -/
def Machine.valueOf (m : Machine) (scope : Nat) (name : String) : Option Value :=
  ((m.environment.scope scope).vars.find? name).bind fun v =>
    match v.binding with
    | some (.held operand) => some (m.store.reveal operand)
    | _ => none

/-- A later state in which one slot of one variable has another content, and every other
slot and every other variable is as it was. -/
structure Machine.SetsSlot (m m' : Machine) (scope : Nat) (name : String) (index : Int)
    (content : Value) : Prop where
  environment : m'.environment = m.environment
  frames : m'.frames = m.frames
  slot : ∃ slots : List (Option Value), m.valueOf scope name = some (.array slots) ∧
    0 ≤ index ∧ index < slots.length ∧
    m'.valueOf scope name = some (.array (slots.set index.toNat (some content)))
  others : ∀ scope' name', scope' ≠ scope ∨ name' ≠ name →
    m'.valueOf scope' name' = m.valueOf scope' name'

/-- The same state with other ticks left and another log. -/
def Machine.elapsed (m : Machine) (ticks : Nat) (log : Array Event) : Machine :=
  { m with ticks, log }

/-! ## Computations that change nothing

Reading, tracing and failing change nothing but ticks and log; so does what is made of these. -/

namespace Exec

variable {α β : Type}

/-- A computation that, if it succeeds, has changed nothing of a state but its ticks and
its log. -/
def Idle (m : Machine) (x : Exec α) : Prop :=
  ∀ ticks log a m', x (m.elapsed ticks log) = .ok a m' →
    ∃ ticks' log', m' = m.elapsed ticks' log'

variable {m : Machine}

/-- What follows need be idle only for the results that can be. -/
theorem Idle.bind {x : Exec α} {f : α → Exec β} (hx : Idle m x)
    (hf : ∀ a, (∃ ticks log m', x (m.elapsed ticks log) = .ok a m') → Idle m (f a)) :
    Idle m (x >>= f) := by
  intro ticks log b m' h
  obtain ⟨a, m₁, hrun, h⟩ := bind_eq_ok h
  obtain ⟨ticks₁, log₁, rfl⟩ := hx ticks log a m₁ hrun
  exact hf a ⟨ticks, log, _, hrun⟩ ticks₁ log₁ b m' h

/-- What follows, whatever the result. -/
theorem Idle.next {x : Exec α} {f : α → Exec β} (hx : Idle m x) (hf : ∀ a, Idle m (f a)) :
    Idle m (x >>= f) :=
  hx.bind fun a _ => hf a

theorem idle_pure (a : α) : Idle m (pure a) := by
  intro ticks log _ m' h
  cases h
  exact ⟨ticks, log, rfl⟩

theorem idle_fail (fault : Fault) : Idle m (fail fault : Exec α) :=
  fun _ _ _ _ h => nomatch h

theorem idle_lift (x : Except Fault α) : Idle m (lift x) := by
  cases x with
  | ok a => exact idle_pure a
  | error fault => exact idle_fail fault

/-- A conversion changes nothing, whether it fails or not. -/
theorem idle_settle (c : Conversion) (x : Except Fault α) : Idle m (settle c x) := by
  cases x with
  | ok a => exact idle_pure a
  | error fault => exact fun _ _ _ _ h => nomatch h

/-- What depends on the state may see other ticks and another log. -/
theorem idle_get {f : Machine → Exec β} (hf : ∀ ticks log, Idle m (f (m.elapsed ticks log))) :
    Idle m (get >>= f) := by
  intro ticks log b m' h
  rw [get_bind_apply] at h
  exact hf ticks log ticks log b m' h

/-- A tick changes nothing but the ticks. -/
theorem idle_tick (next : Option Access) : Idle m (tick next) := by
  intro ticks log a m' h
  unfold tick at h
  split at h
  · cases h
  · next ticks' _ =>
    cases h
    exact ⟨ticks', log, rfl⟩

/-- To emit an event changes nothing but the log. -/
theorem idle_emit (event : Event) : Idle m (emit event) := by
  intro ticks log a m' h
  cases h
  exact ⟨ticks, log.push event, rfl⟩

/-- To trace a message changes nothing but the log. -/
theorem idle_trace (level : Nat) (message : Machine → Except Fault String) :
    Idle m (trace level message) := by
  refine idle_get fun ticks log => ?_
  split
  · exact (idle_lift _).next fun text => idle_emit _
  · exact idle_pure ()

theorem idle_reveal (operand : Operand) : Idle m (reveal operand) :=
  idle_get fun _ _ => idle_pure _

theorem idle_activeScope : Idle m activeScope := by
  refine idle_get fun ticks log => ?_
  split
  · exact idle_fail _
  · exact idle_pure _

/-- To look up a variable changes nothing but the ticks. -/
theorem idle_variableIn (scope : Nat) (target : Occurrence) :
    Idle m (variableIn scope target) :=
  (idle_tick _).next fun _ => idle_get fun _ _ => idle_lift _

/-- What an evaluation has in common with its steps: how it is put together makes no
difference to the property. -/
structure Inherited (P : {α : Type} → Exec α → Prop) : Prop where
  pure : ∀ {α : Type} (a : α), P (pure a : Exec α)
  fail : ∀ {α : Type} (fault : Fault), P (fail fault : Exec α)
  bind : ∀ {α β : Type} {x : Exec α} {f : α → Exec β}, P x → (∀ a, P (f a)) → P (x >>= f)
  tick : ∀ next, P (tick next)
  lift : ∀ {α : Type} (x : Except Fault α), P (lift x)
  settle : ∀ {α : Type} (c : Conversion) (x : Except Fault α), P (settle c x)
  reveal : ∀ operand, P (reveal operand)

/-- What steps have in common a reading of a slot has. -/
theorem Inherited.readSlot {P : {α : Type} → Exec α → Prop} (hP : Inherited P)
    (name : String) (array : Operand) (index : Int) : P (Level.readSlot name array index) := by
  refine hP.bind (hP.reveal array) fun v => ?_
  split
  · refine hP.bind (hP.lift _) fun slot => ?_
    split
    · exact hP.fail _
    · exact hP.pure _
  · exact hP.fail _

/-- To change nothing is inherited from the steps. -/
theorem inherited_idle (m : Machine) : Inherited (Idle m) :=
  ⟨idle_pure, idle_fail, Idle.next, idle_tick, idle_lift, idle_settle, idle_reveal⟩

/-- A result that is there is there, and the state is as it was. -/
theorem lift_eq_ok {x : Except Fault α} {m m' : Machine} {a : α} (h : lift x m = .ok a m') :
    x = .ok a ∧ m = m' := by
  cases x with
  | error fault => cases h
  | ok b =>
    cases h
    exact ⟨rfl, rfl⟩

/-- A conversion that succeeds leaves the state as it was. -/
theorem settle_eq_ok {c : Conversion} {x : Except Fault α} {m m' : Machine} {a : α}
    (h : settle c x m = .ok a m') : x = .ok a ∧ m = m' := by
  cases x with
  | error fault => cases h
  | ok b =>
    cases h
    exact ⟨rfl, rfl⟩

/-- The innermost scope is that of the first frame. -/
theorem activeScope_ok {m m' : Machine} {scope : Nat} (h : activeScope m = .ok scope m') :
    m = m' ∧ m.frames.head? = some scope := by
  cases hframes : m.frames with
  | nil =>
    unfold activeScope at h
    rw [get_bind_apply, hframes] at h
    cases h
  | cons top rest =>
    rw [activeScope_apply hframes] at h
    cases h
    exact ⟨rfl, rfl⟩

/-- A slot that has been set was there. -/
theorem setSlot_ok {address : Nat} {index : Int} {content : Value} {m' : Machine}
    (h : setSlot address index content m = .ok () m') :
    (0 ≤ index ∧ index < (m.store.slots address).length) ∧
      m' = { m with
        store := m.store.write address
          ((m.store.slots address).set index.toNat (some content)) } := by
  rw [setSlot_apply] at h
  unfold Value.setSlotAt at h
  by_cases hrange : 0 ≤ index ∧ index < (m.store.slots address).length
  · rw [if_pos hrange] at h
    cases h
    exact ⟨hrange, rfl⟩
  · rw [if_neg hrange] at h
    cases h

end Exec

/-! ## Expressions without calls

An expression that calls nothing is made of such steps, whatever the levels below do. -/

namespace Level

variable {p : Program} {m : Machine}

/-- Reading a variable gives what it holds. -/
theorem readVariable_ok (below : Level) (hm : m.Owned p) {scope : Nat} {target : Occurrence}
    {operand : Operand} {m' : Machine}
    (h : below.readVariable (some scope) target m = .ok operand m') :
    ∃ owner v, m.environment.owner? scope target.name = some owner ∧
      (m.environment.scope owner).vars.find? target.name = some v ∧
      v.binding = some (.held operand) := by
  unfold readVariable at h
  obtain ⟨v, m₁, hfound, h⟩ := bind_eq_ok h
  obtain ⟨owner, howner, hv⟩ := variableIn_ok hfound
  obtain ⟨held, hbinding, -⟩ :=
    (hm.plain owner).held target.name v (Variables.mem_of_find? hv)
  rw [hbinding] at h
  cases h
  exact ⟨owner, v, howner, hv, hbinding⟩

/-- The passing of ticks makes no difference to who holds what. -/
theorem owned_elapsed (hm : m.Owned p) (ticks : Nat) (log : Array Event) :
    (m.elapsed ticks log).Owned p :=
  ⟨hm.plain, hm.made, hm.once⟩

/-- To read a variable changes nothing: it holds an operand. -/
theorem idle_readVariable (below : Level) (hm : m.Owned p) (scope : Option Nat)
    (target : Occurrence) : Idle m (below.readVariable scope target) := by
  unfold readVariable
  cases scope with
  | none => exact idle_fail _
  | some id =>
    refine (idle_variableIn id target).bind fun v ⟨ticks, log, m', hfound⟩ => ?_
    obtain ⟨owner, -, hv⟩ := variableIn_ok hfound
    obtain ⟨held, hbinding, -⟩ :=
      (hm.plain owner).held target.name v (Variables.mem_of_find? hv)
    rw [hbinding]
    exact idle_pure _

/-- An evaluation has what its steps have in common.  Of calls this has to be said apart,
where it has to be said of calls at all. -/
theorem inherited_evaluate {P : {α : Type} → Exec α → Prop} (hP : Inherited P)
    (hread : ∀ below scope target, P (readVariable below scope target)) {calls : Prop}
    (hcall : calls → ∀ depth, (∀ scope e, P ((running p depth).evaluate scope e)) →
      ∀ scope name callee arguments, P (do
        let operands ← List.mapM ((running p depth).evaluate scope) arguments
        match ← (running p depth).call callee operands with
        | some result => return result
        | none => fail (.execution (.noResult name)))) :
    ∀ (depth : Nat) (scope : Option Nat) (e : Expr), calls ∨ e.isCallFree = true →
      P ((running p depth).evaluate scope e) := by
  intro depth
  induction depth with
  | zero => exact fun _ _ _ => hP.fail _
  | succ depth ih =>
    intro scope e h
    have htruth : ∀ e : Expr, calls ∨ e.isCallFree = true →
        P ((running p depth).evaluateTruth scope e) := fun e h =>
      hP.bind (ih scope e h) fun a => hP.bind (hP.reveal a) fun _ => hP.lift _
    have hinteger : ∀ e : Expr, calls ∨ e.isCallFree = true →
        P ((running p depth).evaluateInteger scope e) := fun e h =>
      hP.bind (ih scope e h) fun a => hP.bind (hP.reveal a) fun _ => hP.settle _ _
    have hboth : ∀ {left right : Expr}, (left.isCallFree && right.isCallFree) = true →
        left.isCallFree = true ∧ right.isCallFree = true := Bool.and_eq_true_iff.mp
    refine hP.bind (hP.tick none) fun _ => ?_
    cases e with
    | literal v => exact hP.pure _
    | read target => exact hread _ scope target
    | slot target index =>
      refine hP.bind (hread _ scope target) fun array => ?_
      exact hP.bind (hinteger index h) fun _ => hP.readSlot _ _ _
    | sign symbol operand =>
      refine hP.bind (ih scope operand h) fun a => hP.bind (hP.reveal a) fun _ => ?_
      exact hP.bind (hP.lift _) fun _ => hP.pure _
    | arithmetic op left right =>
      refine hP.bind (ih scope left (h.imp_right fun h => (hboth h).1)) fun a => ?_
      refine hP.bind (ih scope right (h.imp_right fun h => (hboth h).2)) fun b => ?_
      refine hP.bind (hP.reveal a) fun _ => hP.bind (hP.reveal b) fun _ => ?_
      exact hP.bind (hP.lift _) fun _ => hP.pure _
    | condition op left right =>
      have hleft := h.imp_right fun h => (hboth h).1
      have hright := h.imp_right fun h => (hboth h).2
      refine hP.bind ?_ fun _ => hP.pure _
      cases op with
      | both =>
        refine hP.bind (htruth left hleft) fun holds => ?_
        split
        · exact htruth right hright
        · exact hP.pure _
      | either =>
        refine hP.bind (htruth left hleft) fun holds => ?_
        split
        · exact hP.pure _
        · exact htruth right hright
      | compare comparison =>
        refine hP.bind (ih scope left hleft) fun a => hP.bind (ih scope right hright) fun b => ?_
        exact hP.bind (hP.reveal a) fun _ => hP.bind (hP.reveal b) fun _ => hP.lift _
    | call name callee arguments =>
      have hcalls : calls := h.resolve_right Bool.noConfusion
      exact hcall hcalls depth (fun scope e => ih scope e (.inl hcalls)) scope name callee
        arguments
    | blank => exact hP.fail _

/-- An expression without calls changes nothing. -/
theorem idle_evaluate (hm : m.Owned p) (depth : Nat) (scope : Option Nat) (e : Expr)
    (hfree : e.isCallFree = true) : Idle m ((running p depth).evaluate scope e) :=
  inherited_evaluate (inherited_idle m)
    (fun below scope target => idle_readVariable below hm scope target) False.elim depth scope
    e (.inr hfree)

/-- An index without calls changes nothing. -/
theorem idle_evaluateInteger (hm : m.Owned p) (depth : Nat) (scope : Option Nat) {e : Expr}
    (h : e.isCallFree = true) : Idle m ((running p depth).evaluateInteger scope e) :=
  (idle_evaluate hm depth scope e h).next fun a => (idle_reveal a).next fun _ => idle_settle _ _

end Level

/-! ## Setting a slot

The slot is written when all operands have been evaluated, so the one write is the last thing
that happens to the store. -/

/-- Writing into an array does not show in a variable that does not hold it. -/
theorem Machine.Owned.valueOf_write {p : Program} {m : Machine} (hm : m.Owned p)
    {scope address : Nat} {name : String} (hno : ¬ m.Owns scope name address)
    (slots : List (Option Value)) (ticks : Nat) (log : Array Event) :
    valueOf { m with ticks, log, store := m.store.write address slots } scope name =
      m.valueOf scope name := by
  unfold valueOf
  cases hfound : (m.environment.scope scope).vars.find? name with
  | none => rfl
  | some v =>
    have hmem := Variables.mem_of_find? hfound
    obtain ⟨operand, hbinding, -⟩ := (hm.plain scope).held name v hmem
    rw [Option.bind_some, Option.bind_some, hbinding]
    cases operand with
    | value _ => rfl
    | cell other =>
      have hother : other ≠ address := by
        rintro rfl
        exact hno ⟨v, hmem, hbinding⟩
      show some (Value.array _) = some (Value.array _)
      rw [Store.slots_write, if_neg fun h => hother h.1]

/-- Writing into the array of a variable shows in no other one. -/
theorem Machine.Owned.setsSlot {p : Program} {m : Machine} (hm : m.Owned p) {owner : Nat}
    {name : String} {address : Nat} (howns : m.Owns owner name address) {index : Int}
    (hindex : 0 ≤ index ∧ index < (m.store.slots address).length) (content : Value)
    (ticks : Nat) (log : Array Event) :
    m.SetsSlot
      { m with
        ticks, log
        store := m.store.write address
          ((m.store.slots address).set index.toNat (some content)) }
      owner name index content := by
  obtain ⟨v, hmem, hbinding⟩ := howns
  have hv := (hm.plain owner).find? hmem
  have hvalue : ∀ m' : Machine, m'.environment = m.environment →
      m'.valueOf owner name = some (.array (m'.store.slots address)) := by
    intro m' henv
    unfold valueOf
    rw [henv, hv, Option.bind_some, hbinding]
    rfl
  refine ⟨rfl, rfl, ⟨_, hvalue m rfl, hindex.1, hindex.2, ?_⟩, fun scope' name' hne => ?_⟩
  · rw [hvalue]
    · rw [Store.slots_write, if_pos ⟨rfl, hm.owns_lt ⟨v, hmem, hbinding⟩⟩]
    · rfl
  · -- the array in the same cell would be that of the same variable
    refine hm.valueOf_write (fun howns' => ?_) _ ticks log
    obtain ⟨rfl, rfl⟩ := hm.once _ _ _ _ _ ⟨v, hmem, hbinding⟩ howns'
    exact hne.elim (fun h => h rfl) fun h => h rfl

namespace Level

/-- What an assignment to a slot does when it succeeds.  The variable is looked up, and its
array is the one that is written to; then the index is evaluated, and only then is the
value converted. -/
theorem assignSlot_ok {p : Program} {m m' : Machine} (hm : m.Owned p) (below : Level)
    {target : Occurrence} {element : Expr} {value : Operand}
    (h : below.assignSlot target element value m = .ok () m') :
    ∃ scope owner v address, m.frames.head? = some scope ∧
      m.environment.owner? scope target.name = some owner ∧
      (m.environment.scope owner).vars.find? target.name = some v ∧
      v.binding = some (.held (.cell address)) ∧
      ∃ ticks log i m₁ content ticks' log',
        below.evaluateInteger (some scope) element (m.elapsed ticks log) = .ok i m₁ ∧
        (m₁.store.reveal value).convert v.type.element = .ok content ∧
        (0 ≤ i ∧ i < (m₁.store.slots address).length) ∧
        m' = { m₁ with
          ticks := ticks', log := log'
          store := m₁.store.write address
            ((m₁.store.slots address).set i.toNat (some content)) } := by
  obtain ⟨scope, _, hscope, h₁⟩ := bind_eq_ok h
  obtain ⟨rfl, hactive⟩ := activeScope_ok hscope
  obtain ⟨v, m₂, hfound, h₂⟩ := bind_eq_ok h₁
  obtain ⟨owner, howner, hv⟩ := variableIn_ok hfound
  obtain ⟨ticks₂, log₂, rfl⟩ := idle_variableIn _ _ m.ticks m.log _ _ hfound
  obtain ⟨array, m₃, hread, h₃⟩ := bind_eq_ok h₂
  obtain ⟨owner', v', howner', hv', hbinding⟩ :=
    readVariable_ok _ (owned_elapsed hm ticks₂ log₂) hread
  obtain ⟨ticks₃, log₃, rfl⟩ := idle_readVariable _ hm _ _ _ _ _ _ hread
  -- both times the same variable is found
  cases howner.symm.trans howner'
  cases hv.symm.trans hv'
  generalize v.type.isArray = isArray at h₃
  cases array with
  | value w =>
    obtain ⟨_, _, -, hfail⟩ := bind_eq_ok h₃
    cases hfail
  | cell address =>
    cases isArray with
    | false =>
      obtain ⟨_, _, -, hfail⟩ := bind_eq_ok h₃
      cases hfail
    | true =>
      obtain ⟨i, m₄, hindex, h₄⟩ := bind_eq_ok h₃
      obtain ⟨_, _, ⟨⟩, h₅⟩ := bind_eq_ok h₄
      obtain ⟨content, _, hsettle, h₆⟩ := bind_eq_ok h₅
      obtain ⟨hcontent, rfl⟩ := settle_eq_ok hsettle
      obtain ⟨_, m₅, hset, h₇⟩ := bind_eq_ok h₆
      obtain ⟨hrange, rfl⟩ := setSlot_ok hset
      -- what is traced behind it changes nothing
      let written := (m₄.store.slots address).set i.toNat (some content)
      obtain ⟨ticks', log', rfl⟩ :=
        @idle_trace { m₄ with store := m₄.store.write address written } _ _ _ _ _ _ h₇
      exact ⟨scope, owner, v, address, hactive, howner, hv, hbinding, ticks₃, log₃, i, m₄,
        content, ticks', log', hindex, hcontent, hrange, rfl⟩

/-- An assignment evaluates its value first, in the innermost scope. -/
theorem executeNode_assignment {p : Program} {m m' : Machine} (below : Level) {index : Nat}
    {node : Node Operator} (hnode : p.forest.nodes[index]? = some node)
    {target : Occurrence} {element : Option Expr} {value : Expr}
    (hoperator : node.operator = .assignment target element value)
    (h : executeNode p below index m = .ok () m') :
    ∃ scope ticks log operand m₁, m.frames.head? = some scope ∧
      below.evaluate (some scope) value (m.elapsed ticks log) = .ok operand m₁ ∧
      below.assign target element operand m₁ = .ok () m' := by
  obtain ⟨_, m₁, htick, h₁⟩ := bind_eq_ok h
  obtain ⟨ticks₁, log₁, rfl⟩ := idle_tick _ m.ticks m.log _ _ htick
  rw [hnode] at h₁
  obtain ⟨_, m₂, htrace, h₂⟩ := bind_eq_ok h₁
  obtain ⟨ticks₂, log₂, rfl⟩ := idle_trace _ _ _ _ _ _ htrace
  dsimp only at h₂
  rw [hoperator] at h₂
  obtain ⟨scope, _, hscope, h₃⟩ := bind_eq_ok h₂
  obtain ⟨rfl, hactive⟩ := activeScope_ok hscope
  obtain ⟨operand, m₃, hvalue, h₄⟩ := bind_eq_ok h₃
  exact ⟨scope, ticks₂, log₂, operand, m₃, hactive, hvalue, h₄⟩

/-- An assignment to a slot without calls sets that slot of the variable that the name
means, and nothing else. -/
theorem executeNode_slot {p : Program} {m m' : Machine} (hm : m.Owned p) {depth index : Nat}
    {node : Node Operator} (hnode : p.forest.nodes[index]? = some node)
    {target : Occurrence} {element value : Expr}
    (hoperator : node.operator = .assignment target (some element) value)
    (helement : element.isCallFree = true) (hvalue : value.isCallFree = true)
    {ticks : Nat} (h : executeNode p (running p depth) index { m with ticks } = .ok () m') :
    ∃ scope owner i content, m.frames.head? = some scope ∧
      m.environment.owner? scope target.name = some owner ∧
      (∃ ticks ticks' log log', (running p depth).evaluateInteger (some scope) element
        (m.elapsed ticks log) = .ok i (m.elapsed ticks' log')) ∧
      m.SetsSlot m' owner target.name i content := by
  obtain ⟨scope, _, _, operand, m₁, hactive, hoperand, hassign⟩ :=
    executeNode_assignment (running p depth) hnode hoperator h
  -- nothing happens before the slot is set
  obtain ⟨ticks₁, log₁, rfl⟩ := idle_evaluate hm _ _ _ hvalue _ _ _ _ hoperand
  obtain ⟨_, owner, v, address, hactive', howner, hv, hbinding, ticks₂, log₂, i, m₂, content,
    ticks', log', hindex, -, hrange, rfl⟩ :=
    assignSlot_ok (owned_elapsed hm ticks₁ log₁) (running p depth) hassign
  cases hactive.symm.trans hactive'
  obtain ⟨ticks₃, log₃, rfl⟩ := idle_evaluateInteger hm _ _ helement _ _ _ _ hindex
  exact ⟨scope, owner, i, content, hactive, howner, ⟨ticks₂, ticks₃, log₂, log₃, hindex⟩,
    hm.setsSlot ⟨v, Variables.mem_of_find? hv, hbinding⟩ hrange content ticks' log'⟩

end Level

/-! ## The arrays of a run -/

/-- Array variables own their arrays.  In every state of every run no two variables hold
the same array, no name stands for two variables of a scope, and arrays are held in cells
only.  So whenever a slot of the array of some variable is set, nothing but that slot of
that variable changes; and that is all that a successful assignment to a slot does if its
expressions contain no call.  An array that a call gives back is in a new cell, which no
variable holds. -/
theorem arrays_owned {p : Program} {m : Machine} (hm : p.Reaches m) :
    ((∀ scope name scope' name' address, m.Owns scope name address →
        m.Owns scope' name' address → scope = scope' ∧ name = name') ∧
      ∀ scope, (m.environment.scope scope).vars.names.Nodup ∧
        ∀ name v, (name, v) ∈ (m.environment.scope scope).vars.entries →
          ∃ operand, v.binding = some (.held operand) ∧
            ∀ slots, operand ≠ .value (.array slots)) ∧
    (∀ scope name address index content m', m.Owns scope name address →
      setSlot address index content m = .ok () m' →
      m.SetsSlot m' scope name index content) ∧
    (∀ ticks depth index node target element value m',
      p.forest.nodes[index]? = some node →
      node.operator = .assignment target (some element) value →
      element.isCallFree = true → value.isCallFree = true →
      (Level.running p depth).execute index { m with ticks } = .ok () m' →
      ∃ below scope owner i content, depth = below + 1 ∧ m.frames.head? = some scope ∧
        m.environment.owner? scope target.name = some owner ∧
        (∃ ticks ticks' log log', (Level.running p below).evaluateInteger (some scope)
          element (m.elapsed ticks log) = .ok i (m.elapsed ticks' log')) ∧
        m.SetsSlot m' owner target.name i content) ∧
    ∀ ticks depth callee arguments address m',
      (Level.running p depth).call callee arguments { m with ticks } =
        .ok (some (.cell address)) m' →
      m.store.cells.size ≤ address ∧ ∀ scope, ¬ m'.Holds scope address := by
  have howned := hm.owned
  refine ⟨⟨howned.once, fun scope => ⟨(howned.plain scope).named, fun name v hv => ?_⟩⟩,
    ?_, ?_, ?_⟩
  · obtain ⟨operand, hbinding, hmay⟩ := (howned.plain scope).held name v hv
    refine ⟨operand, hbinding, ?_⟩
    rintro slots rfl
    exact hmay slots rfl
  · intro scope name address index content m' howns hset
    obtain ⟨hrange, rfl⟩ := setSlot_ok hset
    exact howned.setsSlot howns hrange content m.ticks m.log
  · intro ticks depth index node target element value m' hnode hoperator helement hvalue hrun
    cases depth with
    | zero => cases hrun
    | succ below =>
      obtain ⟨scope, owner, i, content, hfacts⟩ :=
        Level.executeNode_slot howned hnode hoperator helement hvalue hrun
      exact ⟨below, scope, owner, i, content, rfl, hfacts⟩
  · intro ticks depth callee arguments address m' hrun
    have hstart : Owned p { m with ticks } := ⟨howned.plain, howned.made, howned.once⟩
    have hspares := (Level.spares_running p depth).call _ callee arguments hstart
    unfold Sparing at hspares
    rw [hrun] at hspares
    obtain ⟨hle, hfree⟩ := hspares.2 _ rfl address rfl
    exact ⟨hle, hfree.2⟩

/-- Whether an operator sets a slot of a variable and calls nothing, to be computed. -/
def Operator.setsSlotOf (name : String) : Operator → Bool
  | .assignment target (some element) value =>
    target.name = name && (element.isCallFree && value.isCallFree)
  | _ => false

/-- What can be computed of an operator says that it sets a slot, without calls. -/
theorem Operator.exists_of_setsSlotOf {name : String} {op : Operator}
    (h : op.setsSlotOf name = true) :
    ∃ target element value, op = .assignment target (some element) value ∧
      target.name = name ∧ element.isCallFree = true ∧ value.isCallFree = true := by
  unfold setsSlotOf at h
  split at h
  · simp only [Bool.and_eq_true, decide_eq_true_eq] at h
    exact ⟨_, _, _, rfl, h⟩
  · cases h

/-- The function sets the slot of its own array; the array of the module, which was the
argument, stays as it was. -/
theorem arrays_owned_filling : ∃ p m m' i content,
    Program.ofTokens filling = .ok p ∧ p.Reaches m ∧ m.frames = [1, 0] ∧
      m.Owns 0 "x" 0 ∧ (Level.running p 20).execute 2 { m with ticks := 20 } = .ok () m' ∧
      m.SetsSlot m' 1 "a" i content ∧ m'.valueOf 0 "x" = m.valueOf 0 "x" := by
  obtain ⟨p, hp, hholds⟩ := Program.exists_ofTokens (fun p =>
    let m := p.stateAfter [] false 0 10
    m.frames = [1, 0] && (m.environment.owner? 1 "a" = some 1 &&
      (((m.environment.scope 0).vars.entries.any fun entry =>
        entry.1 = "x" && entry.2.isCell 0) &&
      ((p.forest.nodes[2]?.any fun node => node.operator.setsSlotOf "a") &&
      ((Level.running p 20).execute 2).succeeds { m with ticks := 20 } fun _ => true))))
    (by decide +kernel : (Program.ofTokens filling).toOption.any _ = true)
  have hreaches : p.Reaches (p.stateAfter [] false 0 10) := ⟨_, _, _, _, rfl⟩
  generalize p.stateAfter [] false 0 10 = m at hholds hreaches
  simp only [Bool.and_eq_true, decide_eq_true_eq, List.any_eq_true] at hholds
  obtain ⟨hframes, howner, ⟨entry, hentry, hname, hbinding⟩, hnode, hrun⟩ := hholds
  have howns : m.Owns 0 "x" 0 :=
    ⟨entry.2, hname ▸ hentry, Variable.binding_of_isCell hbinding⟩
  obtain ⟨node, heq, hslot⟩ := (Option.any_eq_true _ _).mp hnode
  obtain ⟨target, element, value, hoperator, htarget, helement, hvalue⟩ :=
    Operator.exists_of_setsSlotOf hslot
  obtain ⟨⟨⟩, m', hok, -⟩ := exists_of_succeeds hrun
  obtain ⟨below, scope, owner, i, content, -, hactive, hfound, -, hsets⟩ :=
    (arrays_owned hreaches).2.2.1 20 20 2 node target element value m' heq hoperator helement
      hvalue hok
  rw [hframes] at hactive
  cases hactive
  rw [htarget, howner] at hfound
  cases hfound
  rw [htarget] at hsets
  exact ⟨p, m, m', i, content, hp, hreaches, hframes, howns, hok, hsets,
    hsets.others 0 "x" (.inl (by decide))⟩

end Pseudocode
