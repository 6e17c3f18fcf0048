import Pseudocode.Proofs.Simulation.Interpreter

/-!
# Where a fault was raised

Scopes are closed and faults are wrapped on the way from the place where something failed
to the end of the run.  The *breaking* interpreter is the same one without that way: when
a fault is raised, it stops and leaves all scopes open (`Exec.breakWithin`), and nothing is
wrapped (`Exec.breakBody`).  So the state that it stops in is the one in which the fault
was raised, and its innermost frame is that of the code that failed.

It differs from the interpreter proper in two functions, the one that runs a module and the
one that enters a call (`Level.breakNode`, `Level.breakEnter`).  All others are shared, so
what is said about them need not be said twice.

`Exec.Breaks` says how a computation of the interpreter proper goes if that of the
breaking one is known: the same way, save that a fault is not the end.  The scopes that
were opened are closed one by one (`Machine.unwind`), and what arrives is the fault that
was raised, wrapped by the innermost call among them (`blamed`).

Closing a scope takes a tick, so a run may be suspended on the way.  That is a possible end
of `Exec.Breaks` of its own, and nothing is said about the fault then.

A fault that has been wrapped is not wrapped again by the calls around
(`Fault.leaving_leaving`); that is why it is enough to know the innermost one.
-/

namespace Pseudocode

open Exec Machine

/-! ## The breaking interpreter -/

namespace Exec

variable {α : Type}

/-- A computation in an open scope, which stays open if there is a fault. -/
def leaveOpen (x : Exec α) : Exec α := fun m =>
  match x m with
  | .error (.fault fault) n => .error (.fault fault) n
  | _ => x.thenTick.andThenTidy Machine.popScope m

/-- A computation in a new scope, which stays open if there is a fault. -/
def breakWithin (parent : Option Nat) (name : String) (vars : Variables)
    (x : Nat → Exec α) : Exec α := do
  let scope ← pushScope parent name vars
  leaveOpen (x scope)

/-- What the body of a function gives back.  A fault in it is not wrapped. -/
def breakBody (body : Exec Unit) : Exec (Option Operand) := do
  match ← attempt body with
  | .ok () => return none
  | .error (.returned result) => return result
  | .error halt => throw halt

end Exec

namespace Level

/-- One level of operators: only modules are not as in `executeNode`. -/
def breakNode (p : Program) (below : Level) (index : Nat) : Exec Unit :=
  match (p.forest.nodes[index]?).map Node.operator with
  | some (.module name number) => do
    tick
    trace 1 fun m =>
      .ok ("exec " ++ Captioned.line (Operator.module name number) ++ " depth="
        ++ toString m.frames.length)
    breakWithin none name Variables.empty fun scope => do
      modify fun m => m.recordModule name scope
      below.executeAll (p.forest.children index)
  | _ => executeNode p below index

/-- Calls a function with as many arguments as it has parameters. -/
def breakEnter (p : Program) (below : Level) (f : FunctionDeclaration)
    (arguments : List Operand) : Exec (Option Operand) := do
  let module ← moduleScope f.module
  let bound ← bindParameters f.parameters arguments Variables.empty
  breakWithin (some module) f.fullName bound fun _ => do
    trace 2 fun m =>
      .ok ("call " ++ f.fullName ++ " depth=" ++ toString m.frames.length)
    let result ← breakBody (below.executeAll (p.forest.siblings f.body))
    callResult f result

/-- One level of calls. -/
def breakCall (p : Program) (below : Level) (callee : Callee) (arguments : List Operand) :
    Exec (Option Operand) := do
  let f := p.function callee
  if arguments.length ≠ f.parameters.length then
    fail (.execution
      (.wrongArity f.fullName f.parameters.length arguments.length))
  breakEnter p below f arguments

/-- A program that breaks at a fault. -/
def breaking (p : Program) : Nat → Level
  | 0 => bottom
  | depth + 1 =>
    let below := breaking p depth
    { evaluate := below.evaluateNode
      execute := breakNode p below
      call := breakCall p below }

end Level

/-- What a module does without handlers. -/
theorem Level.breakNode_module {p : Program} {i : Nat} {node : Node Operator} (below : Level)
    {name : String} {number : Nat} (hnode : p.forest.nodes[i]? = some node)
    (hop : node.operator = .module name number) :
    breakNode p below i = (do
      tick
      trace 1 fun m =>
        .ok ("exec " ++ Captioned.line node.operator ++ " depth=" ++ toString m.frames.length)
      breakWithin none name Variables.empty fun scope => do
        modify fun m => m.recordModule name scope
        below.executeAll (p.forest.children i)) := by
  unfold breakNode
  simp only [hnode, hop, Option.map_some]

/-- The end of a computation: how it ends, and the machine just then. -/
def Exec.ending : EStateM.Result Halt Machine Unit → Except Halt Unit × Machine
  | .ok () n => (.ok (), n)
  | .error halt n => (.error halt, n)

/-- Runs a program until it ends or a fault is raised. -/
def Program.breakOn (p : Program) (m : Machine) : Except Halt Unit × Machine :=
  ending ((do
    p.traceOutline
    p.forest.roots.forM (Level.breaking p levelLimit).execute : Exec Unit) m)

/-! ## The way to the end -/

/-- A fault that has left a call leaves all others as it is. -/
theorem Fault.leaving_leaving (fault : Fault) (f g : String) :
    (fault.leaving f).leaving g = fault.leaving f := by
  cases fault <;> rfl

/-- The machine when a number of scopes have been closed, each a tick later, or when the
ticks were used up. -/
def Machine.unwind (m : Machine) : Nat → Except Machine Machine
  | 0 => .ok m
  | count + 1 => do
    let n ← m.unwind count
    match tick none n with
    | .ok () n => return n.popScope
    | .error _ n => throw n

/-- With a tick for each scope, all are closed. -/
theorem Machine.unwind_ok (m : Machine) : ∀ {count}, count ≤ m.ticks →
    ∃ n, m.unwind count = .ok n ∧ n.ticks = m.ticks - count
  | 0, _ => ⟨m, rfl, rfl⟩
  | count + 1, h => by
    obtain ⟨n, hn, hticks⟩ := m.unwind_ok (Nat.le_of_succ_le h)
    obtain ⟨ticks, hmore⟩ : ∃ ticks, n.ticks = ticks + 1 :=
      ⟨n.ticks - 1, by omega⟩
    have hpop : ∀ m : Machine, m.popScope.ticks = m.ticks := by
      intro m
      unfold popScope
      split <;> rfl
    refine ⟨({ n with ticks } : Machine).popScope, ?_, ?_⟩
    · unfold unwind
      rw [hn]
      simp only [bind, Except.bind, tick_of_succ hmore]
      rfl
    · rw [hpop]
      show ticks = _
      omega

/-- The end of a computation with a fault, when scopes have been closed. -/
def Exec.fallen {α : Type} (fault : Fault) : Except Machine Machine →
    EStateM.Result Halt Machine α
  | .ok n => .error (.fault fault) n
  | .error n => .error .suspended n

/-- The fault that arrives when one was raised in a state with open scopes, the innermost
first: it is wrapped by the innermost. -/
def blamed (scopes : List Nat) (spot : Machine) (raised : Fault) : Fault :=
  match scopes with
  | [] => raised
  | call :: _ => raised.leaving (spot.environment.scope call).name

namespace Exec

variable {α β : Type} {m n : Machine} {fault : Fault} {count : Nat}

/-- What would have followed a fault does not happen. -/
theorem fallen_bind {x : Exec α} {f : α → Exec β} {r : Except Machine Machine}
    (h : x m = fallen fault r) : (x >>= f) m = fallen fault r := by
  rw [bind_apply, h]
  cases r <;> rfl

/-- The body of a function wraps what arrives. -/
theorem fallen_runBody {function : String} {body : Exec Unit} {r : Except Machine Machine}
    (h : body m = fallen fault r) :
    Level.runBody function body m = fallen (fault.leaving function) r := by
  unfold Level.runBody
  rw [attempt_bind_apply, h]
  cases r <;> rfl

/-- A scope is closed a tick later. -/
theorem fallen_within {parent : Option Nat} {name : String} {vars : Variables}
    {x : Nat → Exec α}
    (h : x m.environment.scopes.size (entered m parent name vars) =
      fallen fault (n.unwind count)) :
    within parent name vars x m = fallen fault (n.unwind (count + 1)) := by
  rw [within_apply]
  unfold andThenTidy Machine.unwind
  cases hunwinds : n.unwind count with
  | error z =>
    rw [hunwinds] at h
    rw [thenTick_of_error h]
    rfl
  | ok z =>
    rw [hunwinds] at h
    rw [thenTick_of_error h]
    dsimp only [endAs]
    rw [bind_apply]
    simp only [bind, Except.bind]
    cases hticks : z.ticks with
    | zero =>
      rw [tick_of_zero hticks]
      rfl
    | succ ticks =>
      rw [tick_of_succ hticks]
      rfl

/-- The scope is opened, and then it is left as the computation leaves it. -/
theorem breakWithin_apply {parent : Option Nat} {name : String} {vars : Variables}
    {x : Nat → Exec α} :
    breakWithin parent name vars x m =
      leaveOpen (x m.environment.scopes.size) (entered m parent name vars) := by
  unfold breakWithin
  rw [bind_apply]
  rfl

end Exec

/-! ## With and without handlers -/

/-- A later state with the same open scopes.  Scopes keep their names. -/
structure Machine.Retains (m n : Machine) : Prop where
  frames : n.frames = m.frames
  more : m.environment.scopes.size ≤ n.environment.scopes.size
  names : ∀ id < m.environment.scopes.size,
    (n.environment.scope id).name = (m.environment.scope id).name

/-- Whether a scope is named like a function that a program declares. -/
def Program.Calls (p : Program) (m : Machine) (scope : Nat) : Prop :=
  ∃ (number : Nat) (f : FunctionDeclaration), p.functions[number]? = some f ∧
    (m.environment.scope scope).name = f.fullName

/-- Whether a fault is raised as such; or else it blames the result of the innermost of
some calls. -/
def Fault.Arises (raised : Fault) (spot : Machine) (scopes : List Nat) : Prop :=
  raised.Raised ∨ ∃ function fault call outer, raised = .badResult function fault ∧
    scopes = call :: outer ∧ (spot.environment.scope call).name = function

/-- How a computation ends without handlers and with them.  `own` are the open scopes of
calls that have been opened before, but whose function is still at work: they count for
the blame, but are not closed. -/
inductive Exec.Breaks {α : Type} (p : Program) (own : List Nat) (m : Machine)
    (related : α → α → Prop) :
    EStateM.Result Halt Machine α → EStateM.Result Halt Machine α → Prop where
  | ok {a a' n} (results : related a a') (retains : m.Retains n) (bound : n.Bound) :
      Breaks p own m related (.ok a n) (.ok a' n)
  | returned {result n} (retains : m.Retains n) (bound : n.Bound) :
      Breaks p own m related (.error (.returned result) n) (.error (.returned result) n)
  | suspended {n} : Breaks p own m related (.error .suspended n) (.error .suspended n)
  | fault {raised spot r} (inner : List Nat)
      (frames : spot.frames = inner ++ m.frames)
      (more : m.environment.scopes.size ≤ spot.environment.scopes.size)
      (names : ∀ id < m.environment.scopes.size,
        (spot.environment.scope id).name = (m.environment.scope id).name)
      (calls : ∀ scope ∈ inner, p.Calls spot scope)
      (arises : raised.Arises spot (inner ++ own))
      (arrives : r = fallen (blamed (inner ++ own) spot raised) (spot.unwind inner.length)) :
      Breaks p own m related (.error (.fault raised) spot) r

/-- The breaking interpreter beside the interpreter proper. -/
def breakingUp (p : Program) : Simulation where
  Operands := Eq
  Scopes := Eq
  Tables t t' := t = t' ∧ t.Bound
  Runs related x x' := ∀ m : Machine, m.Bound → Breaks p [] m related (x m) (x' m)

namespace Machine

variable {m n z : Machine}

theorem Retains.refl (m : Machine) : m.Retains m := ⟨rfl, Nat.le_refl _, fun _ _ => rfl⟩

theorem Retains.trans (h : m.Retains n) (h' : n.Retains z) : m.Retains z :=
  ⟨h'.frames.trans h.frames, Nat.le_trans h.more h'.more, fun id hlt =>
    (h'.names id (Nat.lt_of_lt_of_le hlt h.more)).trans (h.names id hlt)⟩

/-- A state that differs in nothing that frames and variables depend on. -/
theorem Alike.retains (h : m.Alike n) : m.Retains n := by
  obtain ⟨henv, hframes⟩ := h
  exact ⟨hframes, Nat.le_of_eq (by rw [henv]), fun _ _ => by rw [henv]⟩

theorem Alike.bound (h : m.Alike n) (hm : m.Bound) : n.Bound := by
  unfold Bound Holding
  rw [h.environment]
  exact hm

/-- A change of a table opens and closes no scope. -/
theorem retains_modify (m : Machine) (id : Nat) (change : Variables → Variables) :
    m.Retains { m with environment := m.environment.modifyVariables id change } := by
  refine ⟨rfl, Nat.le_of_eq (Environment.size_modifyVariables _).symm, fun i _ => ?_⟩
  show ((m.environment.modifyVariables id change).scope i).name = _
  rw [Environment.scope_modify]
  split
  · next h => rw [h.1]
  · rfl

/-- Closing the scope that was opened leads back. -/
theorem Retains.pop {parent : Option Nat} {name : String} {vars : Variables}
    (h : (entered m parent name vars).Retains n) : m.Retains n.popScope := by
  have hframes : n.frames = m.environment.scopes.size :: m.frames := h.frames
  have hsize : m.environment.scopes.size + 1 ≤ n.environment.scopes.size := by
    have hmore := h.more
    rwa [environment_entered, Environment.size_enter] at hmore
  have hcleared := n.retains_modify m.environment.scopes.size Table.clear
  rw [popScope_apply hframes]
  refine ⟨rfl, ?_, fun id hlt => ?_⟩
  · exact Nat.le_trans (Nat.le_of_succ_le hsize) hcleared.more
  · refine (hcleared.names id (by omega)).trans ?_
    have hname := h.names id (by
      rw [environment_entered, Environment.size_enter]
      omega)
    rwa [environment_entered, Environment.scope_enter_ne (Nat.ne_of_lt hlt)] at hname

end Machine

/-! ## Rules -/

namespace Exec

variable {α β : Type} {p : Program} {own : List Nat} {m n : Machine}
  {related : α → α → Prop} {related' : β → β → Prop}

/-- What goes on from a later state goes on from an earlier one. -/
theorem Breaks.behind {r r' : EStateM.Result Halt Machine α} (h : m.Retains n)
    (hr : Breaks p own n related r r') : Breaks p own m related r r' := by
  cases hr with
  | ok results retains bound => exact .ok results (h.trans retains) bound
  | returned retains bound => exact .returned (h.trans retains) bound
  | suspended => exact .suspended
  | fault inner frames more names calls arises arrives =>
    refine .fault inner (frames.trans (by rw [h.frames])) (Nat.le_trans h.more more)
      (fun id hlt => ?_) calls arises arrives
    exact (names id (Nat.lt_of_lt_of_le hlt h.more)).trans (h.names id hlt)

/-- Results that are related more closely. -/
theorem Breaks.imp {related₂ : α → α → Prop} {r r' : EStateM.Result Halt Machine α}
    (himp : ∀ a a', related a a' → related₂ a a') (h : Breaks p own m related r r') :
    Breaks p own m related₂ r r' := by
  cases h with
  | ok results retains bound => exact .ok (himp _ _ results) retains bound
  | returned retains bound => exact .returned retains bound
  | suspended => exact .suspended
  | fault inner frames more names calls arises arrives =>
    exact .fault inner frames more names calls arises arrives

/-- What follows starts in a later state, with the same frames. -/
theorem Breaks.bind {x x' : Exec α} {f f' : α → Exec β}
    (hx : Breaks p own m related (x m) (x' m))
    (hf : ∀ a a' n, related a a' → m.Retains n → n.Bound →
      Breaks p own n related' (f a n) (f' a' n)) :
    Breaks p own m related' ((x >>= f) m) ((x' >>= f') m) := by
  rw [bind_apply]
  generalize x m = r at hx
  generalize hrun' : x' m = r' at hx
  cases hx with
  | ok results retains bound =>
    rw [bind_apply, hrun']
    exact (hf _ _ _ results retains bound).behind retains
  | returned retains bound =>
    rw [bind_apply, hrun']
    exact .returned retains bound
  | suspended =>
    rw [bind_apply, hrun']
    exact .suspended
  | fault inner frames more names calls arises arrives =>
    exact .fault inner frames more names calls arises (fallen_bind (hrun'.trans arrives))

/-- A result that is the same, in a state in which nothing of interest has changed. -/
theorem Breaks.same {a : α} (hm : m.Bound) (h : m.Alike n) (hrelated : related a a) :
    Breaks p own m related (.ok a n) (.ok a n) :=
  .ok hrelated h.retains (h.bound hm)

/-- What fails here has no scope to close. -/
theorem breaks_fail {fault : Fault} (h : fault.Raised) :
    Breaks p [] m related (.error (.fault fault) m) (.error (.fault fault) m) :=
  .fault [] rfl (Nat.le_refl _) (fun _ _ => rfl) nofun (.inl h) rfl

/-- An operation on values opens no scope. -/
theorem breaks_lift (hm : m.Bound) {x : Except Fault α} (hx : Told Fault.Simple x) :
    Breaks p [] m Eq (lift x m) (lift x m) := by
  cases x with
  | ok a => exact .same hm ⟨rfl, rfl⟩ rfl
  | error fault => exact breaks_fail (hx fault rfl).immediate.raised

theorem breaks_tick (hm : m.Bound) (next : Option Access) :
    Breaks p own m Eq (tick next m) (tick next m) := by
  cases hticks : m.ticks with
  | zero =>
    rw [tick_of_zero hticks]
    exact .suspended
  | succ ticks =>
    rw [tick_of_succ hticks]
    exact .same hm ⟨rfl, rfl⟩ rfl

/-- A message that can be made is traced, and nothing of interest changes. -/
theorem trace_ok (level : Nat) {message : Machine → Except Fault String} {text : String}
    (h : message m = .ok text) : ∃ n, trace level message m = .ok () n ∧ m.Alike n := by
  unfold trace
  rw [get_bind_apply, h]
  split
  · exact ⟨_, rfl, rfl, rfl⟩
  · exact ⟨m, rfl, rfl, rfl⟩

theorem breaks_trace (hm : m.Bound) (level : Nat) {message : Machine → Except Fault String}
    {text : String} (h : message m = .ok text) :
    Breaks p own m Eq (trace level message m) (trace level message m) := by
  obtain ⟨n, hrun, halike⟩ := trace_ok level h
  rw [hrun]
  exact .same hm halike rfl

/-- A message that can perhaps not be made. -/
theorem breaks_message (hm : m.Bound) (level : Nat) {message : Machine → Except Fault String}
    (h : Told Fault.Simple (message m)) :
    Breaks p [] m Eq (trace level message m) (trace level message m) := by
  unfold trace
  rw [get_bind_apply]
  split
  · exact (breaks_lift hm h).bind fun text _ n heq _ hn => heq ▸ .same hn ⟨rfl, rfl⟩ rfl
  · exact .same hm ⟨rfl, rfl⟩ rfl

theorem breaks_setSlot (hm : m.Bound) (address : Nat) (index : Int) (content : Value) :
    Breaks p [] m Eq (setSlot address index content m) (setSlot address index content m) := by
  rw [setSlot_apply]
  cases hslots : Value.setSlotAt (m.store.slots address) index (some content) with
  | ok slots => exact .same hm ⟨rfl, rfl⟩ rfl
  | error fault => exact breaks_fail (Value.told_setSlotAt _ _ _ fault hslots).immediate.raised

/-- A variable that is found holds an operand. -/
theorem breaks_variableIn (hm : m.Bound) (scope : Nat) (target : Occurrence) :
    Breaks p [] m (breakingUp p).Vars (variableIn scope target m)
      (variableIn scope target m) := by
  refine (breaks_tick hm _).bind fun _ _ n _ _ hn => ?_
  rw [get_bind_apply]
  unfold Environment.lookup
  cases hfind : n.environment.find? scope target.name with
  | none => exact breaks_fail trivial
  | some v =>
    obtain ⟨operand, hbinding, -⟩ := hn.find? hfind
    obtain ⟨type, binding⟩ := v
    cases hbinding
    exact .same hn ⟨rfl, rfl⟩ (.held type rfl)

theorem breaks_declareHere (hm : m.Bound) (type : DeclaredType) (name : String)
    (held : Operand) :
    Breaks p [] m Eq (declareHere type name held m) (declareHere type name held m) := by
  cases hframes : m.frames with
  | nil =>
    rw [declareHere_of_nil hframes]
    exact breaks_fail trivial
  | cons scope rest =>
    rw [declareHere_apply hframes]
    exact .ok rfl (m.retains_modify scope _) (hm.modify scope fun _ h => h.put trivial)

theorem breaks_rebind (hm : m.Bound) (scope : Nat) (name : String) (held : Operand) :
    Breaks p [] m Eq (rebind scope name held m) (rebind scope name held m) := by
  rw [rebind_apply]
  cases m.environment.owner? scope name with
  | none => exact breaks_fail trivial
  | some owner =>
    exact .ok rfl (m.retains_modify owner _) (hm.modify owner fun _ h => h.rebind trivial)

theorem breaks_nextAnswer (hm : m.Bound) (name : String) (type : DeclaredType) :
    Breaks p [] m Eq (nextAnswer name type m) (nextAnswer name type m) := by
  rw [nextAnswer_eq, get_bind_apply]
  have hread : ∀ {n} {fault : Fault}, fault.Raised → n.Bound →
      Breaks p [] n Eq (takeAnswer fault m.answers n) (takeAnswer fault m.answers n) := by
    intro n fault hraised hn
    cases m.answers with
    | nil => exact breaks_fail hraised
    | cons answer answers => exact .same hn ⟨rfl, rfl⟩ rfl
  split
  · have hprompt : Breaks p [] m Eq
        (emit (.prompted (name ++ " (" ++ type.text ++ "): ")) m)
        (emit (.prompted (name ++ " (" ++ type.text ++ "): ")) m) :=
      .same hm ⟨rfl, rfl⟩ rfl
    exact hprompt.bind fun _ _ n _ _ hn => hread trivial hn
  · exact hread trivial hm

theorem breaks_write (hm : m.Bound) (operand : Operand) :
    Breaks p [] m Eq (Level.write operand m) (Level.write operand m) := by
  have hwrite : Breaks p [] m Eq
      ((lift (m.textOf operand) >>= fun text => emit (.written operand text)) m)
      ((lift (m.textOf operand) >>= fun text => emit (.written operand text)) m) :=
    (breaks_lift hm (m.store.reveal operand).told_toText.simple).bind
      fun text _ n heq _ hn => heq ▸ .same hn ⟨rfl, rfl⟩ rfl
  exact hwrite

/-- By induction on the ticks: the guard and the body break as they do. -/
theorem breaks_loop {guard guard' : Exec Bool} {body body' : Exec Unit}
    (hguard : (breakingUp p).Runs Eq guard guard') (hbody : (breakingUp p).Runs Eq body body') :
    (breakingUp p).Runs Eq (loop guard body) (loop guard' body') := by
  have hrounds : ∀ limit (m : Machine), m.Bound → Breaks p [] m Eq
      (repeatWhile guard body limit m) (repeatWhile guard' body' limit m) := by
    intro limit
    induction limit with
    | zero => exact fun _ _ => .suspended
    | succ limit ih =>
      intro m hm
      refine (hguard m hm).bind fun holds _ n heq _ hn => ?_
      subst heq
      cases holds with
      | true => exact (hbody n hn).bind fun _ _ z _ _ hz => ih z hz
      | false => exact .same hn ⟨rfl, rfl⟩ rfl
  exact fun m hm => hrounds _ m hm

end Exec

/-- The simulation is lawful, since all its steps are those above. -/
theorem lawful_breakingUp (p : Program) : (breakingUp p).Lawful where
  value _ := rfl
  contents _ _ := rfl
  alike {a b} h := by
    cases h
    cases a with
    | value v => exact .inl ⟨v, rfl, rfl⟩
    | cell i => exact .inr ⟨i, i, rfl, rfl⟩
  gives hrelated _ hm := .ok hrelated (.refl _) hm
  chains hx hf m hm := (hx m hm).bind fun a a' n hrelated _ hn => hf a a' hrelated n hn
  loops := breaks_loop
  fails h _ _ := breaks_fail h.raised
  returns {α related r r'} hresults m hm := by
    have heq : r = r' := by
      cases hresults with
      | none => rfl
      | some h => exact congrArg some h
    subst heq
    exact .returned (.refl m) hm
  ticks _ hm := breaks_tick hm none
  refusals _ _ hm := .same hm ⟨rfl, rfl⟩ rfl
  reveals h _ hm := h ▸ .same hm ⟨rfl, rfl⟩ ⟨rfl, rfl⟩
  keeps _ _ hm := .same hm ⟨rfl, rfl⟩ rfl
  setsSlot index s h _ hm := by
    cases h
    exact breaks_setSlot hm _ index (.scalar s)
  active m hm := by
    unfold activeScope
    rw [get_bind_apply]
    cases m.frames with
    | nil => exact breaks_fail trivial
    | cons scope rest => exact .same hm ⟨rfl, rfl⟩ rfl
  looksUp target h _ hm := h ▸ breaks_variableIn hm _ target
  declares type name h _ hm := h ▸ breaks_declareHere hm type name _
  rebinds name hscope h _ hm := hscope ▸ h ▸ breaks_rebind hm _ name _
  empty := ⟨rfl, Variables.holding_nil⟩
  binds {t t' a b} type name htables h m hm := by
    obtain ⟨rfl, hbound⟩ := htables
    cases h
    unfold Table.declare
    split
    · exact breaks_fail trivial
    · exact .same hm ⟨rfl, rfl⟩ ⟨rfl, hbound.append trivial⟩
  tracesLine _ _ _ hm := breaks_trace hm _ rfl
  tracesDepth _ _ _ hm := breaks_trace hm _ rfl
  tracesText before _ h _ hm := h ▸ breaks_message hm _
    ((Value.told_toText _).simple.bind fun _ => told_ok _)
  reads name type _ hm := breaks_nextAnswer hm name type
  writes h _ hm := h ▸ breaks_write hm _

end Pseudocode
