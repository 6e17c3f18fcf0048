import Pseudocode.Proofs.Evaluation
import Pseudocode.Proofs.Irrelevance

/-!
# What a failed statement leaves

A declaration, an assignment and an input statement look names up, evaluate expressions and
convert values, and write last: what they write takes a single step, and behind it there is
only a message to the trace.  So if one of them fails, then before it has written anything,
and nothing has been touched but by the expressions that it had evaluated
(`failures_untouched`).

That the message cannot fail is a matter of the whole program.  A message shows a value, and
a value may have no text; but expressions that stand in the code of a module give only values
that have one, and so do all variables and arrays, as a run beside itself shows
(`Machine.Orderly`).  Every operator that does something stands in such code
(`Layout.marked`).

`Exec.Cautious` says of a computation that its failures are of this kind.  It is put together
from behind: the step that writes, which leaves the state alone if it fails, the operands
before it, and the steps before these, which only look (`Exec.Looks`).

> `Cautious.looks`, `Cautious.operand`, `Cautious.untouched`: a step that looks, an operand,
> and the step at the end.

What the operands have done is told as it happened: they were evaluated one after the other,
up to the one that failed or to the last (`Attempts`).  Without calls in them they touch
nothing (`Attempts.untouched`), so then the statement as a whole has touched nothing.

An input statement evaluates no operand, but takes an answer.  It is taken before it is
converted, so it is gone even if it is refused; and none is taken for a variable that cannot
be found or is an array (`InputFailure`).
-/

namespace Pseudocode

open Exec Machine

/-! ## States -/

/-- A later state in which all scopes have the same variables, bound to the same values, and
no array has changed. -/
structure Machine.Untouched (m m' : Machine) : Prop where
  environment : m'.environment = m.environment
  frames : m'.frames = m.frames
  cells : m.store.cells.size ≤ m'.store.cells.size
  arrays : ∀ address < m.store.cells.size, m'.store.slots address = m.store.slots address
  values : ∀ scope name, m'.valueOf scope name = m.valueOf scope name

/-- A state beside itself: all variables and arrays have values that can be shown. -/
def Machine.Showable (m : Machine) : Prop :=
  ∃ verbosity, m.Beside ⟨verbosity, verbosity, []⟩ m

/-- A state of a program: every array is that of one variable, and all values can be
shown. -/
structure Machine.Orderly (p : Program) (m : Machine) : Prop where
  owned : m.Owned p
  showable : m.Showable

namespace Machine

variable {p : Program} {m m' m'' : Machine}

namespace Untouched

/-- Ticks and messages touch nothing. -/
theorem elapsed (m : Machine) (ticks : Nat) (log : Array Event) :
    m.Untouched (m.elapsed ticks log) :=
  ⟨rfl, rfl, Nat.le_refl _, fun _ _ => rfl, fun _ _ => rfl⟩

/-- What is calm touches nothing. -/
theorem of_calm (h : m.Calm m') : m.Untouched m' := by
  refine ⟨h.environment, h.frames, Nat.le_of_eq (by rw [h.store]), fun _ _ => by rw [h.store],
    fun scope name => ?_⟩
  unfold valueOf
  rw [h.environment, h.store]

theorem refl (m : Machine) : m.Untouched m := of_calm (.refl m)

theorem trans (h : m.Untouched m') (h' : m'.Untouched m'') : m.Untouched m'' where
  environment := h'.environment.trans h.environment
  frames := h'.frames.trans h.frames
  cells := Nat.le_trans h.cells h'.cells
  arrays address hlt :=
    (h'.arrays address (Nat.lt_of_lt_of_le hlt h.cells)).trans (h.arrays address hlt)
  values scope name := (h'.values scope name).trans (h.values scope name)

/-- Arrays still belong to one variable each. -/
theorem owned (h : m.Untouched m') (hm : m.Owned p) : m'.Owned p := by
  refine ⟨?_, fun scope address hheld => ?_, ?_⟩
  · rw [h.environment]
    exact hm.plain
  · unfold Holds at hheld
    rw [h.environment] at hheld
    exact Nat.lt_of_lt_of_le (hm.made scope address hheld) h.cells
  · unfold Owns
    rw [h.environment]
    exact hm.once

end Untouched

/-- What is kept and then forgotten makes no difference. -/
theorem Owned.untouched_keep (hm : m.Owned p) (v : Value) :
    m.Untouched { m with store := (m.store.keep v).2 } := by
  refine ⟨rfl, rfl, m.store.size_keep v, fun _ hlt => Store.slots_keep hlt v,
    fun scope name => ?_⟩
  unfold valueOf
  dsimp only
  cases hfound : (m.environment.scope scope).vars.find? name with
  | none => rfl
  | some u =>
    have hmem := Variables.mem_of_find? hfound
    obtain ⟨operand, hbinding, -⟩ := (hm.plain scope).held name u hmem
    have hmade : m.store.Made operand := by
      cases operand with
      | value _ => trivial
      | cell address => exact hm.made scope address ⟨name, u, hmem, hbinding⟩
    rw [Option.bind_some, Option.bind_some, hbinding]
    exact congrArg some (Store.reveal_keep_of_made hmade v)

end Machine

/-! ## Computations -/

namespace Exec

variable {α β : Type} {p : Program} {m m' : Machine} {halt : Halt}

/-- What fails in two steps fails in the first or in the second. -/
theorem bind_eq_error {x : Exec α} {f : α → Exec β} (h : (x >>= f) m = .error halt m') :
    x m = .error halt m' ∨ ∃ a n, x m = .ok a n ∧ f a n = .error halt m' := by
  rw [bind_apply] at h
  cases hx : x m with
  | ok a n =>
    rw [hx] at h
    exact .inr ⟨a, n, rfl, h⟩
  | error halt' n =>
    rw [hx] at h
    cases h
    exact .inl rfl

/-- An operation on values fails in the state that it finds. -/
theorem lift_bind_error {x : Except Fault α} {f : α → Exec β}
    (h : (lift x >>= f) m = .error halt m') :
    (∃ fault, x = .error fault ∧ halt = .fault fault ∧ m' = m) ∨
      ∃ a, x = .ok a ∧ f a m = .error halt m' := by
  cases x with
  | ok a => exact .inr ⟨a, rfl, h⟩
  | error fault =>
    cases h
    exact .inl ⟨fault, rfl, rfl, rfl⟩

/-- So does a conversion, save that it leaves on record what it refused. -/
theorem settle_bind_error {c : Conversion} {x : Except Fault α} {f : α → Exec β}
    (h : (settle c x >>= f) m = .error halt m') :
    (∃ fault, x = .error fault ∧ halt = .fault fault ∧ m' = { m with refused := some c }) ∨
      ∃ a, x = .ok a ∧ f a m = .error halt m' := by
  cases x with
  | ok a => exact .inr ⟨a, rfl, h⟩
  | error fault =>
    cases h
    exact .inl ⟨fault, rfl, rfl, rfl⟩

/-- A computation that leaves the variables and arrays of a program as they are, however it
ends. -/
def CalmIn (p : Program) (x : Exec α) : Prop :=
  ∀ m : Machine, m.Owned p → m.Calm (x.final m)

/-- What is calm anywhere is calm in the states of a run. -/
theorem Calm.calmIn {x : Exec α} (h : x.Calm) : CalmIn p x := fun m _ => h m

theorem CalmIn.of_ok {x : Exec α} (h : CalmIn p x) (hm : m.Owned p) {a : α}
    (hrun : x m = .ok a m') : m.Calm m' := by
  have hcalm := h m hm
  unfold Exec.final at hcalm
  rwa [hrun] at hcalm

theorem CalmIn.of_error {x : Exec α} (h : CalmIn p x) (hm : m.Owned p)
    (hrun : x m = .error halt m') : m.Calm m' := by
  have hcalm := h m hm
  unfold Exec.final at hcalm
  rwa [hrun] at hcalm

theorem CalmIn.bind {x : Exec α} {f : α → Exec β} (hx : CalmIn p x)
    (hf : ∀ a, CalmIn p (f a)) : CalmIn p (x >>= f) := by
  intro m hm
  unfold Exec.final
  rw [bind_apply]
  cases hrun : x m with
  | error halt n => exact hx.of_error hm hrun
  | ok a n =>
    have hcalm := hx.of_ok hm hrun
    exact hcalm.trans (hf a n (hcalm.owned hm))

/-- Expressions inherit it from their steps. -/
theorem inherited_calmIn (p : Program) : Inherited (CalmIn p) :=
  ⟨fun a => (calm_pure a).calmIn, fun fault => (calm_fail fault).calmIn, CalmIn.bind,
    fun next => (calm_tick next).calmIn, fun x => (calm_lift x).calmIn,
    fun c x => (calm_settle c x).calmIn, fun operand => (calm_reveal operand).calmIn⟩

/-- A variable is read, or it cannot be found. -/
theorem calmIn_readVariable (p : Program) (below : Level) (scope : Option Nat)
    (target : Occurrence) : CalmIn p (below.readVariable scope target) := by
  unfold Level.readVariable
  cases scope with
  | none => exact (calm_fail _).calmIn
  | some id =>
    dsimp only
    intro m hm
    have hlook := calm_variableIn id target m
    unfold Exec.final at hlook ⊢
    rw [bind_apply]
    cases hrun : variableIn id target m with
    | error halt n =>
      rw [hrun] at hlook
      exact hlook
    | ok v n =>
      obtain ⟨owner, -, hv⟩ := variableIn_ok hrun
      obtain ⟨held, hbinding, -⟩ :=
        (hm.plain owner).held target.name v (Variables.mem_of_find? hv)
      rw [hrun] at hlook
      dsimp only
      rw [hbinding]
      exact hlook

/-- An expression without calls touches nothing, even if it fails. -/
theorem calmIn_evaluateHere (p : Program) (depth : Nat) {e : Expr} (hfree : e.isCallFree = true) :
    CalmIn p ((Level.running p depth).evaluateHere e) :=
  calm_activeScope.calmIn.bind fun scope =>
    Level.inherited_evaluate (inherited_calmIn p) (calmIn_readVariable p) False.elim depth
      (some scope) e (.inr hfree)

/-- A computation of a program that only looks: at most ticks and messages tell that it was
there. -/
structure Looks (p : Program) (related : α → α → Prop) (x : Exec α) : Prop where
  calm : CalmIn p x
  idle : ∀ m, m.Owned p → Idle m x
  runs : beside.Runs related x x

theorem looks_tick : Looks p Eq (tick none) :=
  ⟨(calm_tick none).calmIn, fun _ _ => idle_tick none, lawful_beside.ticks⟩

theorem looks_traceDepth (before : String) : Looks p Eq
    (trace 1 fun m => .ok (before ++ toString m.frames.length)) :=
  ⟨Calm.calmIn (calm_trace _ _), fun _ _ => idle_trace _ _,
    lawful_beside.tracesDepth before (by decide)⟩

theorem looks_activeScope : Looks p Eq activeScope :=
  ⟨calm_activeScope.calmIn, fun _ _ => idle_activeScope, lawful_beside.active⟩

theorem looks_variableIn (scope : Nat) (target : Occurrence) :
    Looks p beside.Vars (variableIn scope target) :=
  ⟨(calm_variableIn scope target).calmIn, fun _ _ => idle_variableIn scope target,
    lawful_beside.looksUp target rfl⟩

theorem looks_readVariable (below : Level) (scope : Nat) (target : Occurrence) :
    Looks p Operand.Same (below.readVariable (some scope) target) :=
  ⟨calmIn_readVariable p below (some scope) target,
    fun _ hm => Level.idle_readVariable below hm (some scope) target,
    Level.runs_readVariable lawful_beside rfl target⟩

end Exec

namespace Machine

variable {α : Type} {p : Program} {m m' : Machine} {related : α → α → Prop} {x : Exec α} {a : α}

/-- What runs beside itself leads from one such state to another. -/
theorem Showable.after (hm : m.Showable) (hx : beside.Runs related x x)
    (hrun : x m = .ok a m') : m'.Showable ∧ related a a := by
  obtain ⟨v, hbeside⟩ := hm
  have htogether := hx _ m m hbeside
  rw [hrun] at htogether
  obtain ⟨_, _, ⟨⟩, hrelated, hafter⟩ := htogether.result rfl
  exact ⟨⟨v, hafter⟩, hrelated⟩

/-- What only looks leads to a state of the same kind. -/
theorem Orderly.look (hm : m.Orderly p) (hx : Looks p related x) (hrun : x m = .ok a m') :
    ∃ ticks log, m' = m.elapsed ticks log ∧ m'.Orderly p ∧ related a a := by
  obtain ⟨ticks, log, rfl⟩ := hx.idle m hm.owned m.ticks m.log a m' hrun
  obtain ⟨hshowable, hrelated⟩ := hm.showable.after hx.runs hrun
  exact ⟨ticks, log, rfl, ⟨Level.owned_elapsed hm.owned ticks log, hshowable⟩, hrelated⟩

end Machine

/-! ## Failures -/

/-- Expressions are evaluated one after another, up to a state; the last one may have failed.
Time passes in between. -/
inductive Attempts (evaluate : Expr → Exec Operand) :
    Machine → List Expr → Option Halt → Machine → Prop where
  | done {m} : Attempts evaluate m [] none m
  | passes {m es ended n} (ticks log) (later : Attempts evaluate (m.elapsed ticks log) es ended n) :
      Attempts evaluate m es ended n
  | next {m e a m₁ es ended n} (head : evaluate e m = .ok a m₁)
      (tail : Attempts evaluate m₁ es ended n) : Attempts evaluate m (e :: es) ended n
  | fails {m e halt n} (head : evaluate e m = .error halt n) :
      Attempts evaluate m [e] (some halt) n

/-- Expressions without calls touch nothing, one after another. -/
theorem Attempts.untouched {p : Program} {depth : Nat} {m n : Machine} {es : List Expr}
    {ended : Option Halt} (h : Attempts (Level.running p depth).evaluateHere m es ended n)
    (hm : m.Owned p) (hfree : ∀ e ∈ es, e.isCallFree = true) : m.Untouched n := by
  induction h with
  | done => exact .refl _
  | @passes m _ _ _ ticks log later ih =>
    have hpassed := Untouched.elapsed m ticks log
    exact hpassed.trans (ih (hpassed.owned hm) hfree)
  | next head tail ih =>
    obtain ⟨he, hfree⟩ := List.forall_mem_cons.mp hfree
    have hfirst := Untouched.of_calm ((calmIn_evaluateHere p depth he).of_ok hm head)
    exact hfirst.trans (ih (hfirst.owned hm) hfree)
  | fails head =>
    have he := hfree _ (List.mem_singleton_self _)
    exact .of_calm ((calmIn_evaluateHere p depth he).of_error hm head)

/-- Some of the operands of a statement have been evaluated, and if one failed, then with
the statement; and nothing has been touched since. -/
def FailsAfter (evaluate : Expr → Exec Operand) (m : Machine) (operands : List Expr)
    (halt : Halt) (m' : Machine) : Prop :=
  ∃ started ended n, started <+: operands ∧ Attempts evaluate m started ended n ∧
    (∀ reason, ended = some reason → reason = halt) ∧ n.Untouched m'

/-- A computation that touches nothing if it fails, but for what its operands do. -/
def Exec.Cautious {α : Type} (evaluate : Expr → Exec Operand) (operands : List Expr)
    (x : Exec α) (m : Machine) : Prop :=
  ∀ halt m', x m = .error halt m' → FailsAfter evaluate m operands halt m'

namespace FailsAfter

variable {evaluate : Expr → Exec Operand} {m m' : Machine} {e : Expr} {es : List Expr}
  {halt : Halt}

theorem now (h : m.Untouched m') : FailsAfter evaluate m es halt m' :=
  ⟨[], none, m, List.nil_prefix, .done, nofun, h⟩

theorem passes {ticks : Nat} {log : Array Event}
    (h : FailsAfter evaluate (m.elapsed ticks log) es halt m') :
    FailsAfter evaluate m es halt m' := by
  obtain ⟨started, ended, n, hprefix, hattempts, hends, huntouched⟩ := h
  exact ⟨started, ended, n, hprefix, .passes ticks log hattempts, hends, huntouched⟩

theorem here (h : evaluate e m = .error halt m') : FailsAfter evaluate m (e :: es) halt m' :=
  ⟨[e], some halt, m', ⟨es, rfl⟩, .fails h, fun _ heq => (Option.some.inj heq).symm,
    .refl m'⟩

/-- It had a value, and the failure comes behind it. -/
theorem later {a : Operand} {n : Machine} (head : evaluate e m = .ok a n)
    (h : FailsAfter evaluate n es halt m') : FailsAfter evaluate m (e :: es) halt m' := by
  obtain ⟨started, ended, n', hprefix, hattempts, hends, huntouched⟩ := h
  exact ⟨e :: started, ended, n', List.prefix_cons_iff.mpr (.inr ⟨started, rfl, hprefix⟩),
    .next head hattempts, hends, huntouched⟩

end FailsAfter

namespace Exec

variable {α β : Type} {p : Program} {m : Machine} {related : α → α → Prop} {x : Exec α}
  {f : α → Exec β} {evaluate : Expr → Exec Operand} {e : Expr} {es : List Expr}

/-- A step that only looks, before a computation that is cautious. -/
theorem Cautious.looks (hm : m.Orderly p) (hx : Looks p related x)
    (hf : ∀ a ticks log, (m.elapsed ticks log).Orderly p → related a a →
      x m = .ok a (m.elapsed ticks log) → Cautious evaluate es (f a) (m.elapsed ticks log)) :
    Cautious evaluate es (x >>= f) m := by
  intro halt m' h
  obtain h | ⟨a, n, hrun, h⟩ := bind_eq_error h
  · exact .now (.of_calm (hx.calm.of_error hm.owned h))
  · obtain ⟨ticks, log, rfl, horderly, hrelated⟩ := hm.look hx hrun
    exact (hf a ticks log horderly hrelated hrun halt m' h).passes

/-- An operand, before a computation that is cautious whatever the operand is. -/
theorem Cautious.operand (hm : m.Orderly p) (heval : Evaluates p evaluate)
    (hruns : beside.Runs Operand.Same (evaluate e) (evaluate e)) {g : Operand → Exec β}
    (hg : ∀ a n, n.Orderly p → a.Ordinary → Cautious evaluate es (g a) n) :
    Cautious evaluate (e :: es) (evaluate e >>= g) m := by
  intro halt m' h
  obtain h | ⟨a, n, hrun, h⟩ := bind_eq_error h
  · exact .here h
  · obtain ⟨hspared, -⟩ := heval.spares e m a n hm.owned hrun
    obtain ⟨hshowable, -, ha⟩ := hm.showable.after hruns hrun
    exact .later hrun (hg a n ⟨hspared.owned, hshowable⟩ ha halt m' h)

/-- What is known to leave the state alone if it fails. -/
theorem Cautious.untouched (h : ∀ halt m', x m = .error halt m' → m.Untouched m') :
    Cautious evaluate es x m := fun halt m' hrun => .now (h halt m' hrun)

/-! ### The step that writes -/

/-- Behind what was written, the message to the trace does not fail. -/
theorem trace_ne_error (hm : m.Showable) {a : Operand} (ha : a.Ordinary) (level : Nat)
    (before : String) (halt : Halt) (m' : Machine) :
    trace level (fun m => do return before ++ (← m.textOf a)) m ≠ .error halt m' := by
  obtain ⟨_, hbeside⟩ := hm
  obtain ⟨text, htext, -⟩ := beside_text hbeside ha
  have hmessage : (do return before ++ (← m.textOf a)) = Except.ok (before ++ text) := by
    rw [htext]
    rfl
  rw [trace_apply hmessage]
  exact nofun

/-- A value is converted and written into a variable, and a message shows it or another
one.  This fails only if the value cannot be converted, or else the write fails at once. -/
theorem written_error (hm : m.Showable) {a : Operand} (ha : a.Ordinary) {type : DeclaredType}
    {write : Operand → Exec Unit} (shown : Operand → Operand) {before : String} {halt : Halt}
    {m' : Machine}
    (hwrite : ∀ held, held.Ordinary → beside.Runs Eq (write held) (write held))
    (hshown : ∀ held, held.Ordinary → (shown held).Ordinary)
    (h : (do
      let held ← convert a type
      write held
      trace 2 fun m => do return before ++ (← m.textOf (shown held)) : Exec Unit) m =
        .error halt m') :
    (∃ fault, (m.store.reveal a).convert type = .error fault ∧ halt = .fault fault ∧
        m' = { m with refused := some ⟨m.store.reveal a, type⟩ }) ∨
      ∃ v, (m.store.reveal a).convert type = .ok v ∧
        write (m.store.keep v).1 { m with store := (m.store.keep v).2 } = .error halt m' := by
  rw [bind_apply] at h
  cases hv : (m.store.reveal a).convert type with
  | error fault =>
    rw [convert_apply, hv] at h
    cases h
    exact .inl ⟨fault, rfl, rfl, rfl⟩
  | ok v =>
    have hkept : convert a type m =
        .ok (m.store.keep v).1 { m with store := (m.store.keep v).2 } := by
      rw [convert_apply, hv]
    obtain ⟨hkeeps, -, hheld⟩ := hm.after (lawful_beside.converts ⟨rfl, ha⟩ type) hkept
    rw [hkept] at h
    obtain h | ⟨_, n, hrun, h⟩ := bind_eq_error h
    · exact .inr ⟨v, rfl, h⟩
    · obtain ⟨hwritten, -⟩ := hkeeps.after (hwrite _ hheld) hrun
      exact (trace_ne_error hwritten (hshown _ hheld) _ _ _ _ h).elim

/-- A variable that has been found can be bound. -/
theorem rebound_error (hm : m.Showable) {a : Operand} (ha : a.Ordinary) {type : DeclaredType}
    {scope owner : Nat} {name : String} (howner : m.environment.owner? scope name = some owner)
    (shown : Operand → Operand) {before : String} {halt : Halt} {m' : Machine}
    (hshown : ∀ held, held.Ordinary → (shown held).Ordinary)
    (h : (do
      let held ← convert a type
      rebind scope name held
      trace 2 fun m => do return before ++ (← m.textOf (shown held)) : Exec Unit) m =
        .error halt m') :
    ∃ fault, (m.store.reveal a).convert type = .error fault ∧ halt = .fault fault ∧
      m' = { m with refused := some ⟨m.store.reveal a, type⟩ } := by
  obtain hrefused | ⟨v, -, hwrite⟩ :=
    written_error hm ha shown (fun _ => beside_rebind scope name) hshown h
  · exact hrefused
  · rw [rebind_apply, howner] at hwrite
    cases hwrite

/-- A slot is set, and a message is traced behind it. -/
theorem set_error (hm : m.Showable) {a : Operand} (ha : a.Ordinary) {address : Nat}
    {index : Int} {s : Scalar} {before : String} {halt : Halt} {m' : Machine}
    (h : (do
      setSlot address index (.scalar s)
      trace 2 fun m => do return before ++ (← m.textOf a) : Exec Unit) m = .error halt m') :
    m' = m := by
  obtain h | ⟨_, n, hrun, h⟩ := bind_eq_error h
  · rw [setSlot_apply] at h
    cases hset : Value.setSlotAt (m.store.slots address) index (some (.scalar s)) with
    | ok slots =>
      rw [hset] at h
      cases h
    | error fault =>
      rw [hset] at h
      cases h
      rfl
  · obtain ⟨hwritten, -⟩ := hm.after (beside_setSlot address index s) hrun
    exact (trace_ne_error hwritten ha _ _ _ _ h).elim

end Exec

/-! ## Statements -/

namespace Level

variable {p : Program} {m : Machine} {below : Level}

theorem cautious_declareAs (hm : m.Orderly p) {a : Operand} (ha : a.Ordinary)
    (evaluate : Expr → Exec Operand) (type : DeclaredType) (name : String) :
    Cautious evaluate [] (declareAs type name a) m := by
  refine .untouched fun halt m' h => ?_
  obtain ⟨_, -, -, rfl⟩ | ⟨v, -, hdeclare⟩ := written_error hm.showable ha id
    (fun _ => beside_declareHere type name) (fun _ => id) h
  · exact .of_calm (.refuse m _)
  · -- without an open scope the value that was kept is lost
    cases hframes : m.frames with
    | nil =>
      rw [declareHere_of_nil (by exact hframes)] at hdeclare
      cases hdeclare
      exact hm.owned.untouched_keep v
    | cons scope rest =>
      rw [declareHere_apply (by exact hframes)] at hdeclare
      cases hdeclare

/-- The initial value is evaluated first, if there is one. -/
theorem cautious_executeDeclaration (hm : m.Orderly p)
    (heval : Evaluates p below.evaluateHere) (type : DeclaredType) (name : String)
    {initial : Option Expr} (hruns : ∀ e ∈ initial,
      beside.Runs Operand.Same (below.evaluateHere e) (below.evaluateHere e)) :
    Cautious below.evaluateHere initial.toList (below.executeDeclaration type name initial)
      m := by
  cases initial with
  | some e =>
    have hcautious := Cautious.operand hm heval (hruns e rfl) fun a n hn ha =>
      cautious_declareAs hn ha below.evaluateHere type name
    unfold evaluateHere at hcautious
    rw [executeDeclaration_some]
    rwa [bind_assoc] at hcautious
  | none =>
    intro halt m' h
    rw [executeDeclaration_none] at h
    obtain ⟨_, -, -, rfl⟩ | ⟨v, hv, h⟩ := lift_bind_error h
    · exact .now (.refl _)
    · have hordinary : (Operand.value v).Ordinary := Value.ordinary_initial hv
      exact cautious_declareAs hm hordinary _ type name halt m' h

theorem cautious_assignVariable (hm : m.Orderly p) (target : Occurrence) {a : Operand}
    (ha : a.Ordinary) (evaluate : Expr → Exec Operand) :
    Cautious evaluate [] (assignVariable target a) m := by
  refine .looks hm looks_activeScope fun scope _ _ hm₁ _ _ => ?_
  refine .looks hm₁ (looks_variableIn scope target) fun v _ _ hm₂ _ hfound => ?_
  obtain ⟨owner, howner, -⟩ := variableIn_ok hfound
  refine .untouched fun halt m' h => ?_
  obtain ⟨_, -, -, rfl⟩ :=
    rebound_error hm₂.showable ha (by exact howner) (fun _ => a) (fun _ _ => ha) h
  exact .of_calm (.refuse _ _)

/-- An integer in the innermost scope. -/
theorem evaluateInteger_bind {α : Type} {scope : Nat} (hactive : m.frames.head? = some scope)
    (e : Expr) (f : Int → Exec α) :
    (below.evaluateInteger (some scope) e >>= f) m = (do
      let operand ← below.evaluateHere e
      let v ← reveal operand
      let i ← integerOf v
      f i) m := by
  obtain ⟨rest, hframes⟩ := List.head?_eq_some_iff.mp hactive
  unfold evaluateInteger evaluateHere
  simp only [bind_assoc]
  rw [bind_apply activeScope, activeScope_apply hframes]

/-- The array is looked up before the index is evaluated, and set behind it. -/
theorem cautious_assignSlot (hm : m.Orderly p) (heval : Evaluates p below.evaluateHere)
    (target : Occurrence) {element : Expr}
    (hruns : beside.Runs Operand.Same (below.evaluateHere element) (below.evaluateHere element))
    {a : Operand} (ha : a.Ordinary) :
    Cautious below.evaluateHere [element] (below.assignSlot target element a) m := by
  refine .looks hm looks_activeScope fun scope _ _ hm₁ _ hscope => ?_
  refine .looks hm₁ (looks_variableIn scope target) fun v _ _ hm₂ _ _ => ?_
  refine .looks hm₂ (looks_readVariable below scope target) fun array _ _ hm₃ _ _ => ?_
  split
  · next address _ =>
    obtain ⟨-, hactive⟩ := activeScope_ok hscope
    unfold Cautious
    rw [evaluateInteger_bind (by exact hactive)]
    refine Cautious.operand hm₃ heval hruns fun i n hn _ => .untouched fun halt m' h => ?_
    obtain ⟨_, -, -, rfl⟩ | ⟨index, -, h⟩ := settle_bind_error h
    · exact .of_calm (.refuse _ _)
    obtain ⟨_, -, -, rfl⟩ | ⟨content, hcontent, h⟩ := settle_bind_error h
    · exact .of_calm (.refuse _ _)
    obtain ⟨s, rfl⟩ := (Value.conforms_convert hcontent).scalar
    cases set_error hn.showable ha h
    exact .refl _
  · refine .untouched fun halt m' h => ?_
    cases h
    exact .refl _

end Level

/-! ### Input -/

/-- How an input statement fails in a state, and the answers that are left. -/
inductive InputFailure (m : Machine) (target : Occurrence) : Halt → List String → Prop where
  | tooDeep : InputFailure m target (.fault .tooDeep) m.answers
  | suspended : InputFailure m target .suspended m.answers
  | closed (h : m.frames = []) :
      InputFailure m target (.fault (.execution .noActiveScope)) m.answers
  | undeclared {scope} (active : m.frames.head? = some scope)
      (h : m.environment.find? scope target.name = none) :
      InputFailure m target (.fault (.undeclared .variableName target.name)) m.answers
  | array {scope v} (active : m.frames.head? = some scope)
      (found : m.environment.find? scope target.name = some v) (h : v.type.isArray = true) :
      InputFailure m target
        (.fault (.conversion ⟨.scalar .string, .declared v.type, .arrayInput⟩)) m.answers
  | unanswered {scope v} (active : m.frames.head? = some scope)
      (found : m.environment.find? scope target.name = some v) (plain : v.type.isArray = false)
      (h : m.answers = []) :
      InputFailure m target (.fault (.execution
        (if m.interactive then .inputEnded target.name else .noAnswer target.name))) m.answers
  | refused {scope v answer answers fault} (active : m.frames.head? = some scope)
      (found : m.environment.find? scope target.name = some v) (plain : v.type.isArray = false)
      (taken : m.answers = answer :: answers)
      (h : (Value.string answer).convert v.type = .error fault) :
      InputFailure m target (.fault fault) answers

namespace Exec

variable {m m' : Machine} {halt : Halt}

/-- Outside of all scopes there is no active one. -/
theorem activeScope_error (h : activeScope m = .error halt m') :
    m' = m ∧ m.frames = [] ∧ halt = .fault (.execution .noActiveScope) := by
  unfold activeScope at h
  rw [get_bind_apply] at h
  cases hframes : m.frames with
  | nil =>
    rw [hframes] at h
    cases h
    exact ⟨rfl, rfl, rfl⟩
  | cons scope rest =>
    rw [hframes] at h
    cases h

/-- A tick fails if there is none left. -/
theorem tick_error {next : Option Access} (h : tick next m = .error halt m') :
    m' = { m with pending := next } ∧ halt = .suspended := by
  unfold tick at h
  split at h
  · cases h
    exact ⟨rfl, rfl⟩
  · cases h

/-- A name that cannot be found is told as such. -/
theorem variableIn_error {scope : Nat} {target : Occurrence}
    (h : variableIn scope target m = .error halt m') :
    m'.answers = m.answers ∧ (halt = .suspended ∨
      m.environment.find? scope target.name = none ∧
        halt = .fault (.undeclared .variableName target.name)) := by
  obtain h | ⟨_, n, htick, h⟩ := bind_eq_error h
  · obtain ⟨rfl, rfl⟩ := tick_error h
    exact ⟨rfl, .inl rfl⟩
  · obtain ⟨ticks, log, rfl⟩ := idle_tick _ m.ticks m.log _ _ htick
    rw [get_bind_apply] at h
    unfold Environment.lookup at h
    split at h
    · cases h
    · next hnone =>
      cases h
      exact ⟨rfl, .inr ⟨hnone, rfl⟩⟩

/-- Whether or not it is prompted for, the next answer is taken if there is one. -/
theorem nextAnswer_cases (name : String) (t : DeclaredType) (m : Machine) : ∃ log,
    (m.answers = [] ∧ nextAnswer name t m =
      .error (.fault (.execution (if m.interactive then .inputEnded name else .noAnswer name)))
        { m with log }) ∨
    ∃ answer answers, m.answers = answer :: answers ∧
      nextAnswer name t m = .ok answer { m with answers, log } := by
  have hprompt : ∃ log, nextAnswer name t m =
      takeAnswer (.execution (if m.interactive then .inputEnded name else .noAnswer name))
        m.answers { m with log } := by
    rw [nextAnswer_eq, get_bind_apply]
    by_cases hasked : m.interactive = true
    · rw [if_pos hasked, if_pos hasked]
      exact ⟨m.log.push (.prompted (name ++ " (" ++ t.text ++ "): ")), rfl⟩
    · rw [if_neg hasked, if_neg hasked]
      exact ⟨m.log, rfl⟩
  obtain ⟨log, hnext⟩ := hprompt
  refine ⟨log, ?_⟩
  rw [hnext]
  cases m.answers with
  | nil => exact .inl ⟨rfl, rfl⟩
  | cons answer answers => exact .inr ⟨answer, answers, rfl, rfl⟩

end Exec

/-- Ticks and messages before it make no difference. -/
theorem InputFailure.earlier {m : Machine} {target : Occurrence} {ticks : Nat}
    {log : Array Event} {halt : Halt} {answers : List String}
    (h : InputFailure (m.elapsed ticks log) target halt answers) :
    InputFailure m target halt answers := by
  cases h with
  | tooDeep => exact .tooDeep
  | suspended => exact .suspended
  | closed hclosed => exact .closed hclosed
  | undeclared active hnone => exact .undeclared active hnone
  | array active found harray => exact .array active found harray
  | unanswered active found plain hnone => exact .unanswered active found plain hnone
  | refused active found plain taken hrefused =>
    exact .refused active found plain taken hrefused

/-- An input statement binds its variable last, and takes an answer only for a variable that
can have one. -/
theorem Level.executeInput_error {p : Program} {m m' : Machine} {halt : Halt}
    (hm : m.Orderly p) {target : Occurrence} (h : executeInput target m = .error halt m') :
    m.Untouched m' ∧ InputFailure m target halt m'.answers := by
  rw [executeInput_eq] at h
  obtain h | ⟨scope, _, hscope, h⟩ := bind_eq_error h
  · obtain ⟨rfl, hclosed, rfl⟩ := activeScope_error h
    exact ⟨.refl _, .closed hclosed⟩
  obtain ⟨rfl, hactive⟩ := activeScope_ok hscope
  have hlooks := looks_variableIn (p := p) scope target
  obtain h | ⟨v, _, hfound, h⟩ := bind_eq_error h
  · have huntouched := Untouched.of_calm (hlooks.calm.of_error hm.owned h)
    obtain ⟨hanswers, rfl | ⟨hnone, rfl⟩⟩ := variableIn_error h
    · exact ⟨huntouched, hanswers ▸ .suspended⟩
    · exact ⟨huntouched, hanswers ▸ .undeclared hactive hnone⟩
  obtain ⟨ticks, log, rfl, hm', -⟩ := hm.look hlooks hfound
  obtain ⟨owner, howner, hv⟩ := variableIn_ok hfound
  have hfind : m.environment.find? scope target.name = some v := by
    unfold Environment.find?
    rw [howner, Option.bind_some, hv]
  split at h
  · next harray =>
    cases h
    exact ⟨.elapsed m ticks log, .array hactive hfind harray⟩
  · next hplain =>
    have hplain : v.type.isArray = false := Bool.eq_false_iff.mpr hplain
    obtain h | ⟨answer, n, hanswer, h⟩ := bind_eq_error h
    · obtain ⟨log', ⟨hnone, hnext⟩ | ⟨_, _, -, hnext⟩⟩ :=
        nextAnswer_cases target.name v.type (m.elapsed ticks log)
      · cases hnext.symm.trans h
        exact ⟨.elapsed m ticks log', .unanswered hactive hfind hplain hnone⟩
      · cases hnext.symm.trans h
    · obtain ⟨hshowable, -⟩ :=
        hm'.showable.after (beside_nextAnswer target.name v.type) hanswer
      obtain ⟨log', ⟨-, hnext⟩ | ⟨answer, answers, htaken, hnext⟩⟩ :=
        nextAnswer_cases target.name v.type (m.elapsed ticks log)
      · cases hnext.symm.trans hanswer
      · cases hnext.symm.trans hanswer
        have hread : (Operand.value (.string answer)).Ordinary := trivial
        obtain ⟨fault, hrefused, rfl, rfl⟩ :=
          rebound_error hshowable hread (by exact howner) id (fun _ => id) h
        refine ⟨⟨rfl, rfl, Nat.le_refl _, fun _ _ => rfl, fun _ _ => rfl⟩, ?_⟩
        exact .refused hactive hfind hplain htaken hrefused

/-! ### Operators -/

/-- The operands of a declaration, an assignment or an input statement, in the order in which
they are evaluated. -/
def Operator.operands? : Operator → Option (List Expr)
  | .declaration _ _ initial => some initial.toList
  | .assignment _ element value => some (value :: element.toList)
  | .input _ => some []
  | _ => none

/-- What has operands in this sense does something, so it belongs to the code of a module,
which says what the operands use. -/
theorem Layout.operands {p : Program} {c : Chart} (hlayout : Layout p c) {index : Nat}
    {node : Node Operator} (hnode : p.forest.nodes[index]? = some node) {operands : List Expr}
    (hoperands : node.operator.operands? = some operands) :
    ∃ number, ∀ e ∈ operands, c.Admits number e := by
  have hlabelled : node.operator.Labelled := by
    generalize node.operator = op at hoperands
    cases op with
    | module _ _ | function _ _ | method _ _ => cases hoperands
    | _ => trivial
  obtain ⟨label, hmarks⟩ := hlayout.marked index node hnode hlabelled
  have hcovers : c.Covers label.code.module index := ⟨label, hmarks, rfl⟩
  have huses := hcovers.uses hlayout hnode
  refine ⟨label.code.module, fun e he => ?_⟩
  cases hoperator : node.operator with
  | declaration type name initial =>
    rw [hoperator] at hoperands huses
    cases hoperands
    exact huses e (Option.mem_toList.mp he)
  | assignment target element value =>
    rw [hoperator] at hoperands huses
    cases hoperands
    obtain rfl | he := List.mem_cons.mp he
    · exact huses.2.2
    · exact huses.2.1 e (Option.mem_toList.mp he)
  | input target =>
    rw [hoperator] at hoperands
    cases hoperands
    cases he
  | _ =>
    rw [hoperator] at hoperands
    cases hoperands

namespace Level

variable {p : Program} {m m' : Machine} {below : Level} {index : Nat} {node : Node Operator}
  {halt : Halt}

/-- By cases on the operators that have operands. -/
theorem cautious_executeNode (hm : m.Orderly p) (heval : Evaluates p below.evaluateHere)
    (hnode : p.forest.nodes[index]? = some node) {operands : List Expr}
    (hoperands : node.operator.operands? = some operands) (hruns : ∀ e ∈ operands,
      beside.Runs Operand.Same (below.evaluateHere e) (below.evaluateHere e)) :
    Cautious below.evaluateHere operands (executeNode p below index) m := by
  refine .looks hm looks_tick fun _ _ _ hm₁ _ _ => ?_
  rw [hnode]
  refine .looks hm₁ (looks_traceDepth _) fun _ _ _ hm₂ _ _ => ?_
  dsimp only
  cases hoperator : node.operator with
  | declaration type name initial =>
    rw [hoperator] at hoperands
    cases hoperands
    exact cautious_executeDeclaration hm₂ heval type name fun e he =>
      hruns e (Option.mem_toList.mpr he)
  | assignment target element value =>
    rw [hoperator] at hoperands
    cases hoperands
    obtain ⟨hvalue, helement⟩ := List.forall_mem_cons.mp hruns
    have hcautious : Cautious below.evaluateHere (value :: element.toList)
        (below.evaluateHere value >>= below.assign target element) _ :=
      .operand hm₂ heval hvalue fun a n hn ha => by
        cases element with
        | none => exact cautious_assignVariable hn target ha _
        | some e => exact cautious_assignSlot hn heval target (helement e (.head _)) ha
    unfold evaluateHere at hcautious
    rwa [bind_assoc] at hcautious
  | input target =>
    exact .untouched fun halt m' h => (executeInput_error hm₂ h).1
  | _ =>
    rw [hoperator] at hoperands
    cases hoperands

/-- An input statement is announced in the trace, and then reads. -/
theorem executeNode_input (hm : m.Orderly p) (hnode : p.forest.nodes[index]? = some node)
    {target : Occurrence} (hoperator : node.operator = .input target)
    (h : executeNode p below index m = .error halt m') :
    InputFailure m target halt m'.answers := by
  obtain h | ⟨_, _, hrun, h⟩ := bind_eq_error h
  · obtain ⟨rfl, rfl⟩ := tick_error h
    exact .suspended
  obtain ⟨_, _, rfl, hm₁, -⟩ := hm.look looks_tick hrun
  rw [hnode] at h
  obtain h | ⟨_, _, hrun, h⟩ := bind_eq_error h
  · rw [trace_apply rfl] at h
    cases h
  obtain ⟨_, _, rfl, hm₂, -⟩ := hm₁.look (looks_traceDepth _) hrun
  rw [hoperator] at h
  exact (executeInput_error hm₂ h).2.earlier.earlier

end Level

/-! ## Runs -/

/-- A run beside itself shows that all values that it leaves can be shown. -/
theorem Program.Reaches.orderly {tokens : List Token} {p : Program}
    (h : Program.ofTokens tokens = .ok p) {m : Machine} (hm : p.Reaches m) : m.Orderly p := by
  refine ⟨hm.owned, ?_⟩
  obtain ⟨answers, interactive, verbosity, ticks, rfl⟩ := hm
  obtain ⟨c, hlayout, -⟩ := Program.ofTokens_layout h
  have hfresh := Beside.fresh answers [] interactive verbosity verbosity ticks (.inl rfl)
  rw [List.append_nil] at hfresh
  have hends := (together_run hlayout (Program.regular_of_ofTokens h) (.inl .rfl) hfresh).ends
  have haccompanied := hends.resolve_right fun hlost => hlost.1 rfl
  refine ⟨verbosity, ?_⟩
  unfold stateAfter
  rw [p.runOn_eq]
  exact haccompanied.beside

/-- More ticks or fewer make no difference. -/
theorem Machine.Orderly.refuel {p : Program} {m : Machine} (hm : m.Orderly p) (ticks : Nat) :
    Orderly p { m with ticks } := by
  obtain ⟨v, hbeside⟩ := hm.showable
  exact ⟨Level.owned_elapsed hm.owned ticks m.log, v, hbeside.tick ticks⟩

/-- A declaration, an assignment or an input statement that fails touches nothing.  When it
fails in a state of a run, some of its operands have been evaluated, and the scopes, the
variables and the arrays are those that these have left; so nothing at all has changed if
they contain no call.  Of the answers, a failing input statement takes one if it could be
asked for and does not convert, and else none. -/
theorem failures_untouched {tokens : List Token} {p : Program}
    (h : Program.ofTokens tokens = .ok p) {m m' : Machine} (hm : p.Reaches m)
    {ticks depth index : Nat} {node : Node Operator}
    (hnode : p.forest.nodes[index]? = some node) {operands : List Expr}
    (hoperands : node.operator.operands? = some operands) {halt : Halt}
    (hrun : (Level.running p depth).execute index { m with ticks } = .error halt m') :
    (∃ started ended n, started <+: operands ∧
      Attempts (Level.running p (depth - 1)).evaluateHere m started ended n ∧
      (∀ reason, ended = some reason → reason = halt) ∧ n.Untouched m' ∧
      ((∀ e ∈ started, e.isCallFree = true) → m.Untouched m')) ∧
    ∀ target, node.operator = .input target → InputFailure m target halt m'.answers := by
  have horderly := (hm.orderly h).refuel ticks
  cases depth with
  | zero =>
    cases hrun
    have huntouched := Untouched.elapsed m ticks m.log
    exact ⟨⟨[], none, m, List.nil_prefix, .done, nofun, huntouched, fun _ => huntouched⟩,
      fun _ _ => .tooDeep⟩
  | succ depth =>
    obtain ⟨c, hlayout, -⟩ := Program.ofTokens_layout h
    obtain ⟨number, hadmits⟩ := hlayout.operands hnode hoperands
    have hcorresponds := Level.corresponds_running lawful_beside (scoped_beside p number)
      hlayout (Program.regular_of_ofTokens h) depth
    have hcautious := Level.cautious_executeNode horderly (Level.evaluatesHere p depth) hnode
      hoperands fun e he => hcorresponds.evaluateHere lawful_beside (hadmits e he)
    have hfails : FailsAfter (Level.running p depth).evaluateHere m operands halt m' :=
      .passes (hcautious halt m' hrun)
    obtain ⟨started, ended, n, hprefix, hattempts, hends, huntouched⟩ := hfails
    refine ⟨⟨started, ended, n, hprefix, hattempts, hends, huntouched, fun hfree => ?_⟩,
      fun target hoperator => ?_⟩
    · exact (hattempts.untouched hm.owned hfree).trans huntouched
    · have hfailure := Level.executeNode_input horderly hnode hoperator hrun
      exact InputFailure.earlier hfailure

/-- The tokens of a program with a slot that is not there:

    module m; variable - integer[1] a; variable - integer n;
    begin input n; let a[3] := n; end. -/
def refusing : List Token :=
  let word text : Token := { kind := .word, text }
  let number text : Token := { kind := .number, text }
  [.ofKind .moduleWord, word "m", .ofKind .semicolon,
    .ofKind .variableWord, .ofKind .minus, word "integer", .ofKind .leftBracket,
    number "1", .ofKind .rightBracket, word "a", .ofKind .semicolon,
    .ofKind .variableWord, .ofKind .minus, word "integer", word "n", .ofKind .semicolon,
    .ofKind .beginWord, .ofKind .inputWord, word "n", .ofKind .semicolon,
    .ofKind .letWord, word "a", .ofKind .leftBracket, number "3", .ofKind .rightBracket,
    .ofKind .assign, word "n", .ofKind .semicolon,
    .ofKind .endWord, .ofKind .dot, .ending]

/-- Whether a computation ends with a fault, and something holds of it and the machine. -/
def Exec.faults {α : Type} (x : Exec α) (m : Machine) (holds : Fault → Machine → Bool) : Bool :=
  match x m with
  | .error (.fault fault) m' => holds fault m'
  | _ => false

theorem Exec.exists_of_faults {α : Type} {x : Exec α} {m : Machine}
    {holds : Fault → Machine → Bool} (h : x.faults m holds = true) :
    ∃ fault m', x m = .error (.fault fault) m' ∧ holds fault m' = true := by
  unfold faults at h
  split at h
  · next heq => exact ⟨_, _, heq, h⟩
  · cases h

/-- Whether an operator takes an answer for a variable, to be computed. -/
def Operator.asksFor (name : String) : Operator → Bool
  | .input target => target.name = name
  | _ => false

theorem Operator.exists_of_asksFor {name : String} {op : Operator}
    (h : op.asksFor name = true) : ∃ target, op = .input target ∧ target.name = name := by
  unfold asksFor at h
  split at h
  · exact ⟨_, rfl, of_decide_eq_true h⟩
  · cases h

/-- The first answer is no number; it is taken all the same, and `n` stays as it was.  The
slot is refused after both expressions. -/
theorem failures_untouched_refusing : ∃ p m target fault₁ m₁ fault₂ m₂,
    Program.ofTokens refusing = .ok p ∧ p.Reaches m ∧ m.answers = ["x", "7"] ∧
      target.name = "n" ∧
      (Level.running p 20).execute 4 { m with ticks := 20 } = .error (.fault fault₁) m₁ ∧
      m.Untouched m₁ ∧ InputFailure m target (.fault fault₁) m₁.answers ∧ m₁.answers = ["7"] ∧
      (Level.running p 20).execute 5 { m with ticks := 20 } = .error (.fault fault₂) m₂ ∧
      m.Untouched m₂ ∧ fault₂.message = "index 3 out of range for array of length 1" := by
  obtain ⟨p, hp, hholds⟩ := Program.exists_ofTokens (fun p =>
    let m := p.stateAfter ["x", "7"] false 0 5
    m.answers = ["x", "7"] &&
    ((p.forest.nodes[4]?.any fun node => node.operator.asksFor "n") &&
    (((Level.running p 20).execute 4).faults { m with ticks := 20 }
      (fun _ m₁ => m₁.answers = ["7"]) &&
    ((p.forest.nodes[5]?.any fun node => node.operator.setsSlotOf "a") &&
    ((Level.running p 20).execute 5).faults { m with ticks := 20 }
      fun fault _ => fault.message = "index 3 out of range for array of length 1"))))
    (by decide +kernel : (Program.ofTokens refusing).toOption.any _ = true)
  have hreaches : p.Reaches (p.stateAfter ["x", "7"] false 0 5) := ⟨_, _, _, _, rfl⟩
  generalize p.stateAfter ["x", "7"] false 0 5 = m at hholds hreaches
  simp only [Bool.and_eq_true, decide_eq_true_eq] at hholds
  obtain ⟨hanswers, hasks, hinput, hsets, hslot⟩ := hholds
  obtain ⟨input, hnode, hasks⟩ := (Option.any_eq_true _ _).mp hasks
  obtain ⟨target, hoperator, htarget⟩ := Operator.exists_of_asksFor hasks
  obtain ⟨fault₁, m₁, hrun₁, htaken⟩ := exists_of_faults hinput
  obtain ⟨slot, hnode', hsets⟩ := (Option.any_eq_true _ _).mp hsets
  obtain ⟨array, element, value, hoperator', -, helement, hvalue⟩ :=
    Operator.exists_of_setsSlotOf hsets
  obtain ⟨fault₂, m₂, hrun₂, hmessage⟩ := exists_of_faults hslot
  have hoperands₁ : input.operator.operands? = some [] := by rw [hoperator]; rfl
  have hoperands₂ : slot.operator.operands? = some [value, element] := by rw [hoperator']; rfl
  obtain ⟨⟨started₁, -, -, hprefix₁, -, -, -, huntouched₁⟩, hfailure⟩ :=
    failures_untouched hp hreaches hnode hoperands₁ hrun₁
  obtain ⟨⟨started₂, -, -, hprefix₂, -, -, -, huntouched₂⟩, -⟩ :=
    failures_untouched hp hreaches hnode' hoperands₂ hrun₂
  have hfree₁ : ∀ e ∈ started₁, e.isCallFree = true := by
    cases List.prefix_nil.mp hprefix₁
    exact nofun
  have hfree₂ : ∀ e ∈ started₂, e.isCallFree = true := by
    have hboth : ∀ e ∈ [value, element], e.isCallFree = true :=
      List.forall_mem_cons.mpr ⟨hvalue, List.forall_mem_singleton.mpr helement⟩
    exact fun e he => hboth e (hprefix₂.subset he)
  exact ⟨p, m, target, fault₁, m₁, fault₂, m₂, hp, hreaches, hanswers, htarget, hrun₁,
    huntouched₁ hfree₁, hfailure target hoperator, of_decide_eq_true htaken, hrun₂,
    huntouched₂ hfree₂, of_decide_eq_true hmessage⟩

end Pseudocode
