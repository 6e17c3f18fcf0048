import Pseudocode.Proofs.Arrays
import Pseudocode.Proofs.Isolation

/-!
# What evaluation leaves alone

An expression changes something only where it makes a call, and a call changes variables
of modules and its own (`call_spares`).  So while an expression is evaluated, the open
calls keep their variables and the arrays in them (`Machine.Shielded`, `shields_evaluate`).
Operands that wait for later ones to be evaluated, as the arguments of a call do
(`Trail`), keep their values, then, unless they are arrays of modules' variables and a
later one makes a call (`reveal_later`, `Trail.reveal_eq`).

A trail has the states in between, since what an operand is worth is asked of the state in
which it is used, not of the one in which it was evaluated.  A scalar is worth the same in
both.  An array is worth what its cell holds, and who may write to the cell is known from
ownership: a variable of a call's frame is out of reach of anything called from it, a
module's variable is not (`Machine.Shared`).

What holds of whole evaluations is shown for their steps and inherited from there
(`inherited_shields`), so that the walk over expressions is made once for all such
properties.
-/

namespace Pseudocode

open Exec Machine

/-! ## States -/

/-- A later state with the same open scopes, in which those that are no modules' have the
variables that they had, and these the arrays that they had. -/
structure Machine.Shielded (m m' : Machine) : Prop where
  separate : m'.Separate
  frames : m'.frames = m.frames
  more : m.environment.scopes.size ≤ m'.environment.scopes.size
  recorded : ∀ scope, m'.Records scope →
    m.Records scope ∨ m.environment.scopes.size ≤ scope
  scopes : ∀ scope < m.environment.scopes.size, ¬ m.Records scope →
    m'.environment.scope scope = m.environment.scope scope
  arrays : ∀ scope address, ¬ m.Records scope → m.Holds scope address →
    m'.store.slots address = m.store.slots address

namespace Machine

variable {m m' m'' : Machine}

/-- A scope that has variables has been opened. -/
theorem Holds.lt {scope address : Nat} (h : m.Holds scope address) :
    scope < m.environment.scopes.size := by
  refine Nat.lt_of_not_le fun hle => ?_
  unfold Holds at h
  rw [Environment.scope_of_le hle] at h
  exact Variables.not_holds_empty h

namespace Shielded

/-- The passing of ticks, and what is written, shield everything. -/
theorem elapsed (h : m.Separate) (ticks : Nat) (log : Array Event) :
    m.Shielded (m.elapsed ticks log) :=
  ⟨⟨h.made, h.owned, h.recorded⟩, rfl, Nat.le_refl _, fun _ => .inl, fun _ _ _ => rfl,
    fun _ _ _ _ => rfl⟩

/-- A scope that belongs to no module does not come to belong to one. -/
theorem not_records (h : m.Shielded m') {scope : Nat}
    (hlt : scope < m.environment.scopes.size) (hno : ¬ m.Records scope) :
    ¬ m'.Records scope := by
  intro hrecords
  rcases h.recorded scope hrecords with hyes | hle
  · exact hno hyes
  · omega

/-- What is shielded twice is shielded. -/
theorem trans (h : m.Shielded m') (h' : m'.Shielded m'') : m.Shielded m'' where
  separate := h'.separate
  frames := h'.frames.trans h.frames
  more := Nat.le_trans h.more h'.more
  recorded scope hrecords := by
    rcases h'.recorded scope hrecords with hrecords' | hle
    · exact h.recorded scope hrecords'
    · exact .inr (Nat.le_trans h.more hle)
  scopes scope hlt hno := by
    have hlt' := Nat.lt_of_lt_of_le hlt h.more
    rw [h'.scopes scope hlt' (h.not_records hlt hno), h.scopes scope hlt hno]
  arrays scope address hno hholds := by
    have hholds' : m'.Holds scope address := by
      unfold Holds
      rw [h.scopes scope hholds.lt hno]
      exact hholds
    rw [h'.arrays scope address (h.not_records hholds.lt hno) hholds',
      h.arrays scope address hno hholds]

/-- What the two sides of a fork do not see is shielded. -/
theorem of_paired {n' : Machine} (hm : m.Separate)
    (h : Fork.Paired ⟨m, m⟩ m.frames m' n') : m.Shielded m' where
  separate := h.separate
  frames := h.frames
  more := h.environments.more
  recorded := h.recorded
  scopes scope hlt hno := by
    refine h.environments.hidden scope ?_
    rintro (hrecords | hle)
    · exact hno hrecords
    · exact Nat.not_lt.mpr hle hlt
  arrays scope address hno hholds := by
    refine h.stores.hidden address (hm.made scope address hholds) fun other hcells => ?_
    cases hcells with
    | old hrecords hheld _ _ =>
      rw [hm.owned scope _ address hholds hheld] at hno
      exact hno hrecords
    | new j => exact absurd (hm.made scope _ hholds) (by simp)

end Shielded

end Machine

/-- A call shields the open scopes. -/
theorem shielded_call {m m' : Machine} (hm : m.Separate) (p : Program) (depth : Nat)
    (callee : Callee) {arguments : List Operand}
    (hmade : ∀ operand ∈ arguments, m.store.Made operand) {result : Option Operand}
    (h : (Level.running p depth).call callee arguments m = .ok result m') :
    m.Shielded m' := by
  have hagree := agree_call hm p depth callee hmade hm.recast_self hmade rfl
  rw [h] at hagree
  cases hagree with
  | ok _ paired => exact .of_paired hm paired

/-! ## Computations -/

namespace Exec

variable {α β : Type}

/-- A computation that, if it succeeds, keeps arrays owned and shields the open
scopes. -/
def Shields (p : Program) (x : Exec α) : Prop :=
  ∀ m a m', m.Owned p → m.Separate → x m = .ok a m' → m'.Owned p ∧ m.Shielded m'

variable {p : Program}

/-- Computations that shield the open scopes do so one after the other. -/
theorem Shields.bind {x : Exec α} {f : α → Exec β} (hx : x.Shields p)
    (hf : ∀ a, (f a).Shields p) : (x >>= f).Shields p := by
  intro m b m' howned hseparate h
  obtain ⟨a, m₁, hrun, h⟩ := bind_eq_ok h
  obtain ⟨howned₁, hshielded₁⟩ := hx m a m₁ howned hseparate hrun
  obtain ⟨howned', hshielded'⟩ := hf a m₁ b m' howned₁ hshielded₁.separate h
  exact ⟨howned', hshielded₁.trans hshielded'⟩

/-- What changes nothing shields everything. -/
theorem shields_of_idle {x : Exec α} (h : ∀ m : Machine, m.Owned p → Idle m x) :
    x.Shields p := by
  intro m a m' howned hseparate hrun
  obtain ⟨ticks, log, rfl⟩ := h m howned m.ticks m.log a m' hrun
  exact ⟨Level.owned_elapsed howned ticks log, .elapsed hseparate ticks log⟩

theorem shields_pure (a : α) : (pure a : Exec α).Shields p :=
  shields_of_idle fun _ _ => idle_pure a

theorem shields_fail (fault : Fault) : (fail fault : Exec α).Shields p :=
  shields_of_idle fun _ _ => idle_fail fault

theorem shields_lift (x : Except Fault α) : (lift x).Shields p :=
  shields_of_idle fun _ _ => idle_lift x

theorem shields_reveal (operand : Operand) : (reveal operand).Shields p :=
  shields_of_idle fun _ _ => idle_reveal operand

end Exec

/-! ## Operands one after another -/

/-- Expressions are evaluated one after another: the operand of each, and the state behind
it. -/
inductive Trail (evaluate : Expr → Exec Operand) :
    Machine → List Expr → List (Operand × Machine) → Machine → Prop where
  | nil {m} : Trail evaluate m [] [] m
  | cons {m e a m₁ es steps m'} (head : evaluate e m = .ok a m₁)
      (tail : Trail evaluate m₁ es steps m') :
      Trail evaluate m (e :: es) ((a, m₁) :: steps) m'

/-- What is known of the ways in which a running program evaluates expressions. -/
structure Evaluates (p : Program) (evaluate : Expr → Exec Operand) : Prop where
  shields : ∀ e, (evaluate e).Shields p
  spares : ∀ e m a m', m.Owned p → evaluate e m = .ok a m' →
    m.Spared p m' ∧ m'.store.Made a
  idle : ∀ e m, e.isCallFree = true → m.Owned p → Idle m (evaluate e)

/-- Operands that were evaluated one after another leave a trail. -/
theorem trail_of_mapM {evaluate : Expr → Exec Operand} : ∀ {es : List Expr} {m m' : Machine}
    {operands : List Operand}, es.mapM evaluate m = .ok operands m' →
    ∃ steps, Trail evaluate m es steps m' ∧ operands = steps.map Prod.fst := by
  intro es
  induction es with
  | nil =>
    intro m m' operands h
    cases h
    exact ⟨[], .nil, rfl⟩
  | cons e es ih =>
    intro m m' operands h
    rw [List.mapM_cons] at h
    obtain ⟨a, m₁, hhead, h⟩ := bind_eq_ok h
    obtain ⟨rest, m₂, htail, h⟩ := bind_eq_ok h
    cases h
    obtain ⟨steps, htrail, rfl⟩ := ih htail
    exact ⟨(a, m₁) :: steps, .cons hhead htrail, rfl⟩

/-- A later state does not lose cells. -/
theorem Store.Made.later {p : Program} {m m' : Machine} {a : Operand}
    (h : m.store.Made a) (hspared : m.Spared p m') : m'.store.Made a := by
  cases a with
  | value v => trivial
  | cell address => exact Nat.lt_of_lt_of_le h hspared.cells

/-- Whether an operand is the array of a module's variable: calls can change it. -/
def Machine.Shared (m : Machine) (a : Operand) : Prop :=
  ∃ owner name address, a = .cell address ∧ m.Owns owner name address ∧ m.Records owner

/-- Whatever happens behind it in an expression, an operand keeps its value, unless it is
the array of a module's variable. -/
theorem reveal_later {p : Program} {m m' : Machine} {a : Operand} (hmade : m.store.Made a)
    (hspared : m.Spared p m') (hshielded : m.Shielded m') :
    m'.store.reveal a = m.store.reveal a ∨ m.Shared a := by
  cases a with
  | value v => exact .inl rfl
  | cell address =>
    by_cases hfree : m.Free address
    · exact .inl (congrArg Value.array (hspared.free address hfree).2)
    · -- somebody holds the array: an open call, or a module
      obtain ⟨owner, hholds⟩ : ∃ owner, m.Holds owner address := by
        by_contra hnone
        exact hfree ⟨hmade, fun scope hholds => hnone ⟨scope, hholds⟩⟩
      by_cases hrecords : m.Records owner
      · obtain ⟨name, v, hmem, hbinding⟩ := hholds
        exact .inr ⟨owner, name, address, rfl, ⟨v, hmem, hbinding⟩, hrecords⟩
      · exact .inl (congrArg Value.array (hshielded.arrays owner address hrecords hholds))

namespace Trail

variable {p : Program} {evaluate : Expr → Exec Operand} (heval : Evaluates p evaluate)
  {m m' : Machine} {es : List Expr} {steps : List (Operand × Machine)}

include heval

/-- Behind the last operand of a trail, everything that evaluation spares is as it was. -/
theorem later (h : Trail evaluate m es steps m') (howned : m.Owned p) (hseparate : m.Separate) :
    m.Spared p m' ∧ m.Shielded m' := by
  induction h with
  | nil => exact ⟨.refl howned, .elapsed hseparate _ _⟩
  | cons head tail ih =>
    obtain ⟨howned₁, hshielded⟩ := heval.shields _ _ _ _ howned hseparate head
    obtain ⟨hspared, -⟩ := heval.spares _ _ _ _ howned head
    obtain ⟨hspared', hshielded'⟩ := ih howned₁ hshielded.separate
    exact ⟨hspared.trans hspared', hshielded.trans hshielded'⟩

/-- What a trail has evaluated has been made. -/
theorem made (h : Trail evaluate m es steps m') (howned : m.Owned p)
    (hseparate : m.Separate) : ∀ a ∈ steps.map Prod.fst, m'.store.Made a := by
  induction h with
  | nil => exact fun a ha => nomatch ha
  | cons head tail ih =>
    obtain ⟨howned₁, hshielded⟩ := heval.shields _ _ _ _ howned hseparate head
    obtain ⟨-, hmade⟩ := heval.spares _ _ _ _ howned head
    refine List.forall_mem_cons.mpr ⟨hmade.later (tail.later heval howned₁ hshielded.separate).1,
      ih howned₁ hshielded.separate⟩

/-- Expressions without calls change nothing, one after another. -/
theorem idle (h : Trail evaluate m es steps m') (howned : m.Owned p)
    (hfree : ∀ e ∈ es, e.isCallFree = true) : ∃ ticks log, m' = m.elapsed ticks log := by
  induction h with
  | nil => exact ⟨_, _, rfl⟩
  | @cons m e a m₁ es steps m' head tail ih =>
    obtain ⟨he, hfree⟩ := List.forall_mem_cons.mp hfree
    obtain ⟨ticks, log, rfl⟩ := heval.idle e m he howned m.ticks m.log a m₁ head
    obtain ⟨ticks', log', rfl⟩ := ih (Level.owned_elapsed howned ticks log) hfree
    exact ⟨ticks', log', rfl⟩

/-- An operand has its value still when the last one has been evaluated, unless it is the
array of a module's variable and a later expression makes a call. -/
theorem reveal_eq (h : Trail evaluate m es steps m') (howned : m.Owned p)
    (hseparate : m.Separate) {k : Nat} {a : Operand} {mₖ : Machine}
    (hk : steps[k]? = some (a, mₖ)) :
    m'.store.reveal a = mₖ.store.reveal a ∨
      mₖ.Shared a ∧ ∃ e ∈ es.drop (k + 1), e.isCallFree = false := by
  induction h generalizing k with
  | nil => cases hk
  | @cons m e b m₁ es steps m' head tail ih =>
    obtain ⟨howned₁, hshielded⟩ := heval.shields _ _ _ _ howned hseparate head
    obtain ⟨-, hmade⟩ := heval.spares _ _ _ _ howned head
    cases k with
    | succ k => exact ih howned₁ hshielded.separate hk
    | zero =>
      cases hk
      obtain ⟨hspared', hshielded'⟩ := tail.later heval howned₁ hshielded.separate
      rcases reveal_later hmade hspared' hshielded' with hsame | hmodule
      · exact .inl hsame
      by_cases hfree : ∀ e ∈ es, e.isCallFree = true
      · obtain ⟨ticks, log, rfl⟩ := tail.idle heval howned₁ hfree
        exact .inl rfl
      · obtain ⟨e', hmem, hcalls⟩ : ∃ e ∈ es, e.isCallFree = false := by
          by_contra hnone
          refine hfree fun e he => ?_
          rw [← Bool.not_eq_false]
          exact fun hcalls => hnone ⟨e, he, hcalls⟩
        exact .inr ⟨hmodule, e', hmem, hcalls⟩

end Trail

/-! ## Expressions -/

namespace Level

variable {p : Program}

/-- An expression in the innermost open scope. -/
def evaluateHere (below : Level) (e : Expr) : Exec Operand := do
  below.evaluate (some (← activeScope)) e

/-- An expression spares what calls spare, and gives an operand that has been made. -/
theorem spared_evaluate (depth : Nat) (scope : Option Nat) (e : Expr) {m m' : Machine}
    {a : Operand} (howned : m.Owned p) (h : (running p depth).evaluate scope e m = .ok a m') :
    m.Spared p m' ∧ m'.store.Made a := by
  have hspares := (spares_running p depth).evaluate m scope e howned
  unfold Sparing at hspares
  rw [h] at hspares
  exact ⟨hspares.1, hspares.2.1⟩

/-- To shield is inherited from the steps of evaluation. -/
theorem inherited_shields (p : Program) : Inherited (Shields p) :=
  ⟨shields_pure, shields_fail, Shields.bind, fun _ => shields_of_idle fun _ _ => idle_tick _,
    shields_lift, fun c x => shields_of_idle fun _ _ => idle_settle c x, shields_reveal⟩

/-- Evaluation of an expression shields the open scopes. -/
theorem shields_evaluate (p : Program) (depth : Nat) (scope : Option Nat) (e : Expr) :
    ((running p depth).evaluate scope e).Shields p := by
  refine inherited_evaluate (inherited_shields p) (fun below scope target =>
      shields_of_idle fun _ howned => idle_readVariable below howned scope target)
    (fun _ depth hall scope name callee arguments m a m' howned hseparate h => ?_)
    depth scope e (.inl trivial)
  obtain ⟨operands, m₁, harguments, h⟩ := bind_eq_ok h
  obtain ⟨result, m₂, hcall, h⟩ := bind_eq_ok h
  obtain ⟨steps, htrail, rfl⟩ := trail_of_mapM harguments
  have heval : Evaluates p ((running p depth).evaluate scope) :=
    ⟨hall scope, fun e _ _ _ howned => spared_evaluate depth scope e howned,
      fun e _ hfree howned => idle_evaluate howned depth scope e hfree⟩
  obtain ⟨hspared₁, hshielded₁⟩ := htrail.later heval howned hseparate
  have hshielded₂ := shielded_call hshielded₁.separate p depth callee
    (htrail.made heval howned hseparate) hcall
  have hspared₂ := (spares_running p depth).call m₁ callee (steps.map Prod.fst) hspared₁.owned
  unfold Sparing at hspared₂
  rw [hcall] at hspared₂
  cases result with
  | none => cases h
  | some operand =>
    cases h
    exact ⟨hspared₂.1.owned, hshielded₁.trans hshielded₂⟩

/-- Evaluation in a scope shields, spares, and changes nothing without a call. -/
theorem evaluates (p : Program) (depth : Nat) (scope : Option Nat) :
    Evaluates p ((running p depth).evaluate scope) :=
  ⟨shields_evaluate p depth scope, fun e _ _ _ howned => spared_evaluate depth scope e howned,
    fun e _ hfree howned => idle_evaluate howned depth scope e hfree⟩

/-- So does evaluation in the innermost scope. -/
theorem evaluatesHere (p : Program) (depth : Nat) :
    Evaluates p (running p depth).evaluateHere where
  shields e := Shields.bind (shields_of_idle fun _ _ => idle_activeScope) fun scope =>
    shields_evaluate p depth (some scope) e
  spares e m a m' howned h := by
    obtain ⟨scope, m₁, hscope, hrun⟩ := bind_eq_ok h
    obtain ⟨rfl, -⟩ := activeScope_ok hscope
    exact spared_evaluate depth (some scope) e howned hrun
  idle e m hfree howned := idle_activeScope.next fun scope =>
    idle_evaluate howned depth (some scope) e hfree

end Level

end Pseudocode
