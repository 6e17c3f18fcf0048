import Pseudocode.Proofs.Breaking
import Pseudocode.Proofs.Ownership.Interpreter

/-!
# Who is to blame for a fault

A fault is wrapped once, by the call in whose own code it was raised, however many calls
there are around it.  This is shown by running the program beside the breaking interpreter,
which stops where a fault is raised: the two agree level by level (`corresponds_breaking`),
so the end of a run can be told from the state in which the other one stopped
(`Program.falls`).

The frames of that state are a row of calls and, outermost, their module
(`Machine.Framed`).  A fault is blamed on the innermost of them, and what the caller is told
depends on the fault (`Program.Blames`): one that says what it happened to stays as it is,
others are wrapped with the name of the function called, and those of modules are not
wrapped at all.

> `Breaks.closed`, `breaks_within`, `breaks_body`: a scope that stays open, a call that opens
> one, and a body that wraps what is raised in it.

That the name in the wrapped fault is that of a declared function is not a matter of the
handler, which takes it from the frame.  It follows from the frames: each but the outermost
was opened by a call, and a call names its scope by the function (`Program.Calls`).

`failures_blamed` puts it together for whole runs.  It also says when the result of a call is
refused: just if it does not convert to the declared type, and then this conversion is left
on record.
-/

namespace Pseudocode

open Exec Machine

/-! ## Scopes that stay open -/

namespace Exec

variable {α : Type} {p : Program} {own : List Nat} {m : Machine} {related : α → α → Prop}

/-- A computation without a fault closes its scope in both interpreters. -/
theorem Breaks.closed {parent : Option Nat} {name : String} {vars : Variables}
    {x x' : Exec α}
    (h : Breaks p own (entered m parent name vars) related (x (entered m parent name vars))
      (x' (entered m parent name vars)))
    (hnone : ∀ raised spot, x (entered m parent name vars) ≠ .error (.fault raised) spot) :
    Breaks p [] m related (leaveOpen x (entered m parent name vars))
      (x'.thenTick.andThenTidy popScope (entered m parent name vars)) := by
  unfold leaveOpen andThenTidy thenTick
  rw [attempt_bind_apply, attempt_bind_apply]
  generalize x (entered m parent name vars) = r at h hnone
  generalize x' (entered m parent name vars) = r' at h
  cases h with
  | @ok a a' n results retains bound =>
    dsimp only [endAs]
    rw [bind_apply, bind_apply]
    cases hticks : n.ticks with
    | zero =>
      rw [tick_of_zero hticks]
      exact .suspended
    | succ ticks =>
      rw [tick_of_succ hticks]
      have hspent : (entered m parent name vars).Retains { n with ticks } :=
        retains.trans (Alike.retains ⟨rfl, rfl⟩)
      have hbound : Machine.Bound { n with ticks } := bound
      exact .ok results hspent.pop hbound.pop
  | @returned result n retains bound =>
    dsimp only [endAs]
    rw [bind_apply]
    cases hticks : n.ticks with
    | zero =>
      rw [tick_of_zero hticks]
      exact .suspended
    | succ ticks =>
      rw [tick_of_succ hticks]
      have hspent : (entered m parent name vars).Retains { n with ticks } :=
        retains.trans (Alike.retains ⟨rfl, rfl⟩)
      have hbound : Machine.Bound { n with ticks } := bound
      exact .returned hspent.pop hbound.pop
  | suspended => exact .suspended
  | fault _ _ _ _ _ _ _ => exact absurd rfl (hnone _ _)

/-- A scope that a call has opened is one to blame from then on. -/
theorem breaks_within {parent : Option Nat} {name : String} {vars : Variables}
    {x x' : Nat → Exec α} {number : Nat} {f : FunctionDeclaration}
    (hf : p.functions[number]? = some f) (hname : name = f.fullName)
    (h : Breaks p [m.environment.scopes.size] (entered m parent name vars) related
      (x m.environment.scopes.size (entered m parent name vars))
      (x' m.environment.scopes.size (entered m parent name vars))) :
    Breaks p [] m related (breakWithin parent name vars x m)
      (within parent name vars x' m) := by
  rw [breakWithin_apply]
  by_cases hfault : ∃ raised spot, x m.environment.scopes.size (entered m parent name vars) =
      .error (.fault raised) spot
  · obtain ⟨raised, spot, hrun⟩ := hfault
    unfold leaveOpen
    rw [hrun] at h ⊢
    generalize hrun' : x' m.environment.scopes.size (entered m parent name vars) = r' at h
    cases h with
    | fault inner frames more names calls arises arrives =>
      have hsize : m.environment.scopes.size <
          (entered m parent name vars).environment.scopes.size := size_lt_entered
      have hspot : (spot.environment.scope m.environment.scopes.size).name = name :=
        (names _ hsize).trans name_entered
      refine .fault (inner ++ [m.environment.scopes.size]) ?_ (by omega)
        (fun id hlt => ?_) (fun scope hscope => ?_) ?_ ?_
      · rw [frames, List.append_assoc]
        rfl
      · rw [names id (by omega), environment_entered,
          Environment.scope_enter_ne (Nat.ne_of_lt hlt)]
      · obtain hinner | hlast := List.mem_append.mp hscope
        · exact calls scope hinner
        · rw [List.mem_singleton.mp hlast]
          exact ⟨number, f, hf, hspot.trans hname⟩
      · rwa [List.append_nil]
      · rw [List.append_nil, List.length_append]
        exact fallen_within (hrun'.trans arrives)
  · rw [within_apply]
    exact h.closed fun raised spot hrun => hfault ⟨raised, spot, hrun⟩

/-- The body of a function blames the function for what it raises itself. -/
theorem breaks_body {body body' : Exec Unit} {function : String} {call : Nat}
    (h : Breaks p [] m Eq (body m) (body' m))
    (hlt : call < m.environment.scopes.size)
    (hname : (m.environment.scope call).name = function) :
    Breaks p [call] m Eq (breakBody body m) (Level.runBody function body' m) := by
  unfold breakBody
  rw [attempt_bind_apply]
  generalize body m = r at h
  generalize hrun' : body' m = r' at h
  cases h with
  | ok _ retains bound =>
    unfold Level.runBody
    rw [attempt_bind_apply, hrun']
    exact .ok rfl retains bound
  | returned retains bound =>
    unfold Level.runBody
    rw [attempt_bind_apply, hrun']
    exact .ok rfl retains bound
  | suspended =>
    unfold Level.runBody
    rw [attempt_bind_apply, hrun']
    exact .suspended
  | @fault raised spot _ inner frames more names calls arises arrives =>
    rw [fallen_runBody (hrun'.trans arrives), List.append_nil]
    rw [List.append_nil] at arises
    refine .fault inner frames more names calls ?_ ?_
    · refine arises.imp_right ?_
      rintro ⟨g, fault, top, outer, hraised, rfl, htop⟩
      exact ⟨g, fault, top, outer ++ [call], hraised, rfl, htop⟩
    · cases inner with
      | nil =>
        have hcall : (spot.environment.scope call).name = function :=
          (names call hlt).trans hname
        show fallen (raised.leaving function) _ =
          fallen (raised.leaving (spot.environment.scope call).name) _
        rw [hcall]
      | cons top outer =>
        -- what is wrapped already stays as it is
        unfold blamed
        rw [List.cons_append, Fault.leaving_leaving]

/-- What is wrong with the result of a call is not wrapped. -/
theorem breaks_callResult (hm : m.Bound) (f : FunctionDeclaration) (result : Option Operand)
    {call : Nat} (hname : (m.environment.scope call).name = f.fullName) :
    Breaks p [call] m Eq (Level.callResult f result m) (Level.callResult f result m) := by
  have hfail : ∀ {n : Machine} {fault : Fault}, (n.environment.scope call).name = f.fullName →
      fault.leaving f.fullName = fault → fault.Arises n [call] → Breaks p [call] n Eq
        (.error (.fault fault) n : EStateM.Result Halt Machine (Option Operand))
        (.error (.fault fault) n) := by
    intro n fault hname hleaves harises
    refine .fault [] rfl (Nat.le_refl _) (fun _ _ => rfl) nofun harises ?_
    show _ = fallen (fault.leaving (n.environment.scope call).name) _
    rw [hname, hleaves]
    rfl
  cases htype : f.result with
  | none =>
    unfold Level.callResult
    rw [htype]
    exact .same hm ⟨rfl, rfl⟩ rfl
  | some type =>
    cases result with
    | none =>
      unfold Level.callResult
      rw [htype]
      exact hfail hname rfl (.inl trivial)
    | some operand =>
      rw [callResult_apply htype]
      cases hconvert : (m.store.reveal operand).convert type with
      | ok v => exact .same hm ⟨rfl, rfl⟩ rfl
      | error fault =>
        have hkind := (m.store.reveal operand).told_convert type fault hconvert
        -- the scope of the call is still the one that is open
        let n := { m with refused := some ⟨m.store.reveal operand, type⟩ }
        refine Breaks.behind (n := n) (Alike.retains ⟨rfl, rfl⟩) ?_
        have hcall : (n.environment.scope call).name = f.fullName := hname
        cases fault with
        | conversion cause =>
          exact hfail hcall rfl (.inr ⟨f.fullName, cause, call, [], rfl, rfl, hcall⟩)
        | numeral reason => exact hfail hcall rfl (.inl trivial)
        | _ => exact hkind.elim

/-- A module's scope is looked up, and nothing changes. -/
theorem breaks_moduleScope (hm : m.Bound) (name : String) :
    Breaks p [] m Eq (moduleScope name m) (moduleScope name m) := by
  rw [moduleScope_apply]
  cases m.modules.lookup name with
  | none => exact breaks_fail trivial
  | some scope => exact .same hm ⟨rfl, rfl⟩ rfl

end Exec

/-! ## Level by level -/

namespace Level

variable {p : Program} {c : Chart} {number : Nat} {below below' : Level}
  (h : Corresponds (breakingUp p) p c number below below') (hlayout : Layout p c)
  (hregular : p.forest.Regular)

include h hlayout hregular

/-- A call with as many arguments as parameters. -/
theorem Corresponds.breakEnter {callee : Callee} (hcallee : c.Offers number callee)
    (arguments : List Operand) :
    (breakingUp p).Runs Eq (breakEnter p below (p.function callee) arguments)
      (enterCall p below' (p.function callee) arguments) := by
  obtain ⟨-, -, -, hbody⟩ := hcallee.function hlayout hregular
  obtain ⟨_, f, hf, hfunction⟩ := hcallee.declared hlayout
  have hσ := lawful_breakingUp p
  intro m hm
  refine (breaks_moduleScope hm _).bind fun module _ n heq _ hn => heq ▸ ?_
  have hsame : List.Forall₂ Eq arguments arguments := List.forall₂_same.mpr fun _ _ => rfl
  have hbind := runs_bindParameters hσ (p.function callee).parameters hsame hσ.empty
  refine (hbind n hn).bind fun bound _ z htables _ hz => ?_
  obtain ⟨rfl, hbound⟩ := htables
  refine breaks_within hf (congrArg FunctionDeclaration.fullName hfunction) ?_
  -- the scope of the call keeps its name until the result has been converted
  refine (breaks_trace (hz.enter _ _ hbound) 2 rfl).bind fun _ _ u _ hretains hu => ?_
  have hlt := Nat.lt_of_lt_of_le size_lt_entered hretains.more
  have hname := (hretains.names _ size_lt_entered).trans name_entered
  refine (breaks_body (h.executeAll hσ hbody u hu) hlt hname).bind
    fun result _ v heq hretains' hv => heq ▸ ?_
  exact breaks_callResult hv _ result ((hretains'.names _ hlt).trans hname)

/-- A call is refused if the number of arguments is wrong, and entered otherwise. -/
theorem Corresponds.breakCall {callee : Callee} (hcallee : c.Offers number callee)
    (arguments : List Operand) :
    (breakingUp p).Runs Eq (breakCall p below callee arguments)
      (Level.callNode p below' callee arguments) := by
  have henter := h.breakEnter hlayout hregular hcallee arguments
  have hσ := lawful_breakingUp p
  unfold Level.breakCall Pseudocode.Level.callNode
  dsimp only
  split
  · have hrefused : (breakingUp p).Runs Eq
        (fail (.execution (.wrongArity (p.function callee).fullName
          (p.function callee).parameters.length arguments.length)) : Exec PUnit)
        (fail (.execution (.wrongArity (p.function callee).fullName
          (p.function callee).parameters.length arguments.length))) := hσ.fails trivial
    exact hσ.next hrefused fun _ => henter
  · exact henter

omit h in
/-- Every level with handlers does what it does without them, up to a fault. -/
theorem corresponds_breaking : ∀ depth,
    Corresponds (breakingUp p) p c number (breaking p depth) (running p depth)
  | 0 => corresponds_bottom (lawful_breakingUp p)
  | depth + 1 => by
    have hσ := lawful_breakingUp p
    have below := corresponds_breaking depth
    refine ⟨fun hscope he => below.evaluateNode hσ hscope he, fun {i} hrow => ?_,
      fun {callee arguments arguments'} hcallee hall => ?_⟩
    · have hinner : breakNode p (breaking p depth) i =
          executeNode p (breaking p depth) i := by
        obtain ⟨hcovers, node, hnode, -⟩ := hrow
        unfold breakNode
        rw [hnode]
        cases hop : node.operator with
        | module name inner => exact absurd hop (hcovers.not_module hlayout hnode name inner)
        | _ => simp only [Option.map_some, hop]
      show (breakingUp p).Runs Eq (breakNode p (breaking p depth) i) _
      rw [hinner]
      exact below.executeNode hσ hlayout hregular hrow
    · have hsame : List.Forall₂ Eq arguments arguments' := hall
      rw [List.forall₂_eq_eq_eq] at hsame
      subst hsame
      intro m hm
      refine (below.breakCall hlayout hregular hcallee arguments m hm).imp fun r _ heq => ?_
      subst heq
      cases r with
      | none => exact .none
      | some _ => exact .some rfl

end Level

/-! ## Module by module -/

/-- Whether the scopes that are open in a state are those of calls and of a module around
them, or there are none. -/
def Machine.Framed (p : Program) (m : Machine) : Prop :=
  (∀ root ∈ m.frames.getLast?, ∃ d ∈ p.modules, (m.environment.scope root).name = d.name) ∧
    ∀ call ∈ m.frames.dropLast, p.Calls m call

/-- How a module that starts while no scope is open ends without handlers and with them:
all scopes that were open when a fault was raised are closed before the fault arrives. -/
inductive Exec.Arrives (p : Program) :
    EStateM.Result Halt Machine Unit → EStateM.Result Halt Machine Unit → Prop where
  | ok {n} (none : n.frames = []) (bound : n.Bound) : Arrives p (.ok () n) (.ok () n)
  | halted {halt n} (other : ∀ fault, halt ≠ .fault fault) :
      Arrives p (.error halt n) (.error halt n)
  | fault {raised spot r} (framed : spot.Framed p)
      (arises : raised.Arises spot spot.frames.dropLast)
      (arrives : r = fallen (blamed spot.frames.dropLast spot raised)
        (spot.unwind spot.frames.length)) :
      Arrives p (.error (.fault raised) spot) r

namespace Exec

variable {p : Program} {m : Machine}

theorem Arrives.bind {x x' y y' : Exec Unit} (hx : Arrives p (x m) (x' m))
    (hy : ∀ n : Machine, n.frames = [] → n.Bound → Arrives p (y n) (y' n)) :
    Arrives p ((x >>= fun _ => y) m) ((x' >>= fun _ => y') m) := by
  rw [bind_apply]
  generalize x m = r at hx
  generalize hrun' : x' m = r' at hx
  cases hx with
  | ok none bound =>
    rw [bind_apply, hrun']
    exact hy _ none bound
  | halted other =>
    rw [bind_apply, hrun']
    exact .halted other
  | fault framed arises arrives =>
    exact .fault framed arises (fallen_bind (hrun'.trans arrives))

/-- A fault that is raised while no scope is open has arrived. -/
theorem arrives_outside {raised : Fault} (hnone : m.frames = []) (h : raised.Arises m []) :
    Arrives p (.error (.fault raised) m) (.error (.fault raised) m) := by
  refine .fault ⟨fun root hroot => ?_, fun call hcall => ?_⟩ ?_ ?_
  · rw [hnone] at hroot
    cases hroot
  · rw [hnone] at hcall
    cases hcall
  · rw [hnone]
    exact h
  · rw [hnone]
    rfl

theorem arrives_tick (hnone : m.frames = []) (hm : m.Bound) :
    Arrives p (tick none m) (tick none m) := by
  cases hticks : m.ticks with
  | zero =>
    rw [tick_of_zero hticks]
    exact .halted nofun
  | succ ticks =>
    rw [tick_of_succ hticks]
    exact .ok hnone hm

theorem arrives_trace (hnone : m.frames = []) (hm : m.Bound) (level : Nat)
    {message : Machine → Except Fault String} {text : String} (h : message m = .ok text) :
    Arrives p (trace level message m) (trace level message m) := by
  obtain ⟨n, hrun, halike⟩ := trace_ok level h
  rw [hrun]
  exact .ok (halike.frames.trans hnone) (halike.bound hm)

/-- A fault that leaves a scope open was raised in it. -/
theorem fault_of_leaveOpen {α : Type} {x : Exec α} {raised : Fault} {spot : Machine}
    (h : leaveOpen x m = .error (.fault raised) spot) : x m = .error (.fault raised) spot := by
  unfold leaveOpen andThenTidy at h
  cases hrun : x m with
  | ok a n =>
    rw [hrun, thenTick_of_ok hrun] at h
    dsimp only [endAs] at h
    rw [bind_apply] at h
    cases hticks : n.ticks with
    | zero =>
      rw [tick_of_zero hticks] at h
      cases h
    | succ ticks =>
      rw [tick_of_succ hticks] at h
      cases h
  | error halt n =>
    rw [hrun, thenTick_of_error hrun] at h
    cases halt with
    | fault fault => exact h
    | suspended => cases h
    | returned result =>
      dsimp only [endAs] at h
      rw [bind_apply] at h
      cases hticks : n.ticks with
      | zero =>
        rw [tick_of_zero hticks] at h
        cases h
      | succ ticks =>
        rw [tick_of_succ hticks] at h
        cases h

/-- A module that starts while no scope is open. -/
theorem arrives_within {d : ModuleDeclaration} (hd : d ∈ p.modules) (hnone : m.frames = [])
    {x x' : Nat → Exec Unit}
    (h : Breaks p [] (entered m none d.name Variables.empty) Eq
      (x m.environment.scopes.size (entered m none d.name Variables.empty))
      (x' m.environment.scopes.size (entered m none d.name Variables.empty))) :
    Arrives p (breakWithin none d.name Variables.empty x m)
      (within none d.name Variables.empty x' m) := by
  rw [breakWithin_apply]
  by_cases hfault : ∃ raised spot, x m.environment.scopes.size
      (entered m none d.name Variables.empty) = .error (.fault raised) spot
  · obtain ⟨raised, spot, hrun⟩ := hfault
    unfold leaveOpen
    rw [hrun] at h ⊢
    generalize hrun' : x' m.environment.scopes.size (entered m none d.name Variables.empty) =
      r' at h
    cases h with
    | fault inner frames more names calls arises arrives =>
      have hframes : spot.frames = inner ++ [m.environment.scopes.size] := by
        rw [frames]
        show inner ++ m.environment.scopes.size :: m.frames = _
        rw [hnone]
      rw [List.append_nil] at arises arrives
      refine .fault ⟨fun root hroot => ⟨d, hd, ?_⟩, fun call hcall => ?_⟩ ?_ ?_
      · rw [hframes, List.getLast?_concat] at hroot
        cases hroot
        exact (names _ size_lt_entered).trans name_entered
      · rw [hframes, List.dropLast_concat] at hcall
        exact calls call hcall
      · rwa [hframes, List.dropLast_concat]
      · rw [hframes, List.dropLast_concat, List.length_append]
        exact fallen_within (hrun'.trans arrives)
  · have hclosed := h.closed fun raised spot hrun => hfault ⟨raised, spot, hrun⟩
    rw [within_apply]
    generalize hrun : leaveOpen (x m.environment.scopes.size)
      (entered m none d.name Variables.empty) = r at hclosed
    generalize (x' m.environment.scopes.size).thenTick.andThenTidy popScope
      (entered m none d.name Variables.empty) = r' at hclosed
    cases hclosed with
    | ok _ retains bound => exact .ok (retains.frames.trans hnone) bound
    | returned _ _ | suspended => exact .halted nofun
    | fault _ _ _ _ _ _ _ => exact absurd ⟨_, _, fault_of_leaveOpen hrun⟩ hfault

/-- The outline is traced before any scope is open. -/
theorem arrives_outline (p : Program) {m : Machine} (hnone : m.frames = []) (hm : m.Bound) :
    Arrives p (p.traceOutline m) (p.traceOutline m) := by
  have hσ := lawful_breakingUp p
  have houtline : Breaks p [] m Eq (p.traceOutline m) (p.traceOutline m) := by
    unfold Program.traceOutline
    rw [get_bind_apply]
    split
    · exact Level.runs_outline hσ p m hm
    · exact .same hm ⟨rfl, rfl⟩ rfl
  have hframes := (calm_traceOutline p m).frames.trans hnone
  unfold Exec.final at hframes
  generalize hrun : p.traceOutline m = r at houtline hframes
  cases houtline with
  | ok _ _ bound => exact .ok hframes bound
  | returned _ _ | suspended => exact .halted nofun
  | @fault raised spot _ inner frames more names calls arises arrives =>
    have hopen : spot.frames = [] := hframes
    rw [hopen] at frames
    obtain ⟨rfl, -⟩ := List.append_eq_nil_iff.mp frames.symm
    rw [arrives]
    exact arrives_outside hopen arises

/-- Modules that run one after the other. -/
theorem arrives_each {x x' : Nat → Exec Unit} {roots : List Nat}
    (h : ∀ root ∈ roots, ∀ m : Machine, m.frames = [] → m.Bound →
      Arrives p (x root m) (x' root m)) (hnone : m.frames = []) (hm : m.Bound) :
    Arrives p (roots.forM x m) (roots.forM x' m) := by
  induction roots generalizing m with
  | nil => exact .ok hnone hm
  | cons root roots ih =>
    obtain ⟨hroot, hroots⟩ := List.forall_mem_cons.mp h
    exact (hroot m hnone hm).bind fun n hnone hn => ih hroots hnone hn

end Exec

/-- A module runs in a scope of its own, which is the outermost frame. -/
theorem arrives_root {p : Program} {c : Chart} (hlayout : Layout p c)
    (hregular : p.forest.Regular) {root : Nat} (hroot : root ∈ p.forest.roots) {m : Machine}
    (hnone : m.frames = []) (hm : m.Bound) : ∀ depth,
    Arrives p ((Level.breaking p depth).execute root m) ((Level.running p depth).execute root m)
  | 0 => arrives_outside hnone (.inl trivial)
  | depth + 1 => by
    obtain ⟨node, number, d, hnode, hop, hd, hrows⟩ :=
      Program.row_root hlayout hregular hroot
    have hlevels : Level.Corresponds (breakingUp p) p c number (Level.breaking p depth)
        (Level.running p depth) := Level.corresponds_breaking hlayout hregular depth
    have hbody := hlevels.executeAll (lawful_breakingUp p) hrows
    show Arrives p (Level.breakNode p (Level.breaking p depth) root m)
      (Level.executeNode p (Level.running p depth) root m)
    rw [Level.executeNode_module _ hnode hop, Level.breakNode_module _ hnode hop]
    refine (arrives_tick hnone hm).bind fun n hnone hn => ?_
    refine Arrives.bind (arrives_trace hnone hn 1 rfl) fun z hnone hz => ?_
    refine arrives_within (Array.mem_of_getElem? hd) hnone ?_
    have hrecord : (breakingUp p).Runs Eq
        (modify fun m => m.recordModule d.name z.environment.scopes.size : Exec PUnit)
        (modify fun m => m.recordModule d.name z.environment.scopes.size) :=
      fun _ hm => .same hm ⟨rfl, rfl⟩ rfl
    exact (hrecord _ (hz.enter none d.name Variables.holding_nil)).bind
      fun _ _ u _ _ hu => hbody u hu

/-! ## Runs -/

/-- What becomes of a fault that was raised in a state until it arrives at the end of the
run. -/
structure Program.Blames (p : Program) (raised : Fault) (spot : Machine) (fault : Fault) :
    Prop where
  /-- A fault that says what it happened to stays as it is. -/
  unchanged : raised.isExecution = true → fault = raised
  /-- So do faults outside of all scopes. -/
  outside : spot.frames = [] → fault = raised
  /-- So do the faults of modules. -/
  inModule : ∀ root, spot.frames = [root] →
    (∃ d ∈ p.modules, (spot.environment.scope root).name = d.name) ∧ fault = raised
  /-- The faults of calls are wrapped, and blame the declared function that was called. -/
  inCall : ∀ call outer, spot.frames = call :: outer → outer ≠ [] →
    ∃ (number : Nat) (f : FunctionDeclaration), p.functions[number]? = some f ∧
      (spot.environment.scope call).name = f.fullName ∧
      (raised.isOwn = true → raised.isExecution = false →
        fault = .failedIn f.fullName raised ∧
        fault.message = "function " ++ f.fullName ++ " failed: " ++ raised.message)
  /-- The faults of results are those of the innermost call. -/
  inResult : ∀ function cause, raised = .badResult function cause →
    (∃ call outer, spot.frames = call :: outer ∧ outer ≠ [] ∧
      (spot.environment.scope call).name = function) ∧
    fault = raised ∧
    fault.message = "function " ++ function ++ " returned a bad value: " ++ cause.message
  /-- What is wrapped is what was raised, and has not been wrapped before. -/
  once : ∀ function cause, fault = .failedIn function cause →
    cause = raised ∧ cause.isExecution = false

namespace Fault

variable {fault cause : Fault} {f g : String}

/-- A fault that says what it happened to leaves a call as it is. -/
theorem leaving_of_isExecution (h : fault.isExecution = true) : fault.leaving f = fault := by
  unfold leaving
  rw [if_pos h]

/-- Any other fault of the language is wrapped. -/
theorem leaving_of_isOwn (hown : fault.isOwn = true) (hsimple : fault.isExecution = false) :
    fault.leaving f = .failedIn f fault := by
  unfold leaving
  rw [if_neg (by rw [hsimple]; exact Bool.false_ne_true), if_pos hown]

/-- A fault that has been wrapped when it leaves a call is wrapped there or before. -/
theorem leaving_failedIn (h : fault.leaving f = .failedIn g cause) :
    fault = .failedIn g cause ∨ cause = fault ∧ cause.isExecution = false := by
  cases hexecution : fault.isExecution with
  | true => exact .inl ((leaving_of_isExecution hexecution).symm.trans h)
  | false =>
    cases hown : fault.isOwn with
    | true =>
      rw [leaving_of_isOwn hown hexecution] at h
      cases h
      exact .inr ⟨rfl, hexecution⟩
    | false =>
      unfold leaving at h
      rw [hexecution, hown] at h
      cases fault with
      | failedIn _ _ => cases hexecution
      | _ => cases h

/-- What is raised has not been wrapped. -/
theorem Arises.not_failedIn {raised : Fault} {spot : Machine} {scopes : List Nat}
    (h : raised.Arises spot scopes) : raised ≠ .failedIn f cause := by
  rintro rfl
  obtain hraised | ⟨_, _, _, _, heq, -⟩ := h
  · exact hraised
  · cases heq

end Fault

/-- A fault that arises in a state whose scopes are those of calls and their module. -/
theorem Program.blames {p : Program} {raised : Fault} {spot : Machine}
    (hframed : spot.Framed p) (harises : raised.Arises spot spot.frames.dropLast) :
    p.Blames raised spot (blamed spot.frames.dropLast spot raised) := by
  have hunchanged : raised.isExecution = true →
      blamed spot.frames.dropLast spot raised = raised := by
    intro hexecution
    unfold blamed
    split
    · rfl
    · exact Fault.leaving_of_isExecution hexecution
  refine ⟨hunchanged, fun hnone => by rw [hnone]; rfl, fun root hroot => ?_,
    fun call outer hcall houter => ?_, fun function cause hbad => ?_,
    fun function cause hfault => ?_⟩
  · refine ⟨hframed.1 root (by rw [hroot]; rfl), ?_⟩
    rw [hroot]
    rfl
  · have hopen : spot.frames.dropLast = call :: outer.dropLast := by
      rw [hcall, List.dropLast_cons_of_ne_nil houter]
    obtain ⟨number, f, hf, hname⟩ :=
      hframed.2 call (by rw [hopen]; exact List.mem_cons_self ..)
    refine ⟨number, f, hf, hname, fun hown hsimple => ?_⟩
    have hwrapped : blamed spot.frames.dropLast spot raised =
        .failedIn f.fullName raised := by
      rw [hopen, ← hname]
      exact Fault.leaving_of_isOwn hown hsimple
    exact ⟨hwrapped, congrArg Fault.message hwrapped⟩
  · subst hbad
    have hsame := hunchanged rfl
    refine ⟨?_, hsame, congrArg Fault.message hsame⟩
    obtain hraised | ⟨_, _, call, outer, heq, hopen, hname⟩ := harises
    · exact hraised.elim
    · cases heq
      obtain ⟨rest, hrest⟩ : ∃ root, spot.frames = call :: (outer ++ [root]) := by
        have hne : spot.frames ≠ [] := by
          intro hnil
          rw [hnil] at hopen
          cases hopen
        exact ⟨spot.frames.getLast hne, by
          rw [← List.cons_append, ← hopen, List.dropLast_append_getLast hne]⟩
      exact ⟨call, _, hrest, by simp, hname⟩
  · have harising := @Fault.Arises.not_failedIn cause function _ _ _ harises
    unfold blamed at hfault
    split at hfault
    · exact absurd hfault harising
    · exact (Fault.leaving_failedIn hfault).resolve_left harising

/-- A run without handlers, and what comes of it. -/
theorem Program.arrives_run {tokens : List Token} {p : Program}
    (hp : Program.ofTokens tokens = .ok p) {m : Machine} (hnone : m.frames = [])
    (hm : m.Bound) :
    Arrives p
      ((p.traceOutline >>= fun _ =>
        p.forest.roots.forM (Level.breaking p levelLimit).execute) m)
      ((p.traceOutline >>= fun _ => p.forest.roots.forM p.level.execute) m) := by
  obtain ⟨c, hlayout, -⟩ := ofTokens_layout hp
  have hregular := regular_of_ofTokens hp
  refine (arrives_outline p hnone hm).bind fun n hnone hn => arrives_each ?_ hnone hn
  exact fun root hroot m hnone hm => arrives_root hlayout hregular hroot hnone hm levelLimit

/-- How a run ends if the one without handlers is known; the trace may have been closed. -/
inductive Program.Falls (p : Program) :
    Except Halt Unit × Machine → Except Halt Unit × Machine → Prop where
  | otherwise {outcome stop ended} (other : ∀ fault, outcome ≠ .error (.fault fault))
      (states : ended.closeTrace = stop.closeTrace) : Falls p (outcome, stop) (outcome, ended)
  | fault {raised spot fault closed ended} (blames : p.Blames raised spot fault)
      (unwinds : spot.unwind spot.frames.length = .ok closed)
      (states : ended.closeTrace = closed.closeTrace) :
      Falls p (.error (.fault raised), spot) (.error (.fault fault), ended)
  | suspended {raised spot stop ended}
      (unwinds : spot.unwind spot.frames.length = .error stop) :
      Falls p (.error (.fault raised), spot) (.error .suspended, ended)

/-- The trace apart, a run ends as its modules do. -/
theorem Program.runOn_closeTrace (p : Program) (m : Machine) :
    ∃ ended, p.runOn m =
      ((ending ((p.traceOutline >>= fun _ => p.forest.roots.forM p.level.execute) m)).1,
        ended) ∧ ended.closeTrace = (ending ((p.traceOutline >>= fun _ =>
          p.forest.roots.forM p.level.execute) m)).2.closeTrace := by
  unfold Program.runOn Program.run
  rw [bind_apply, bind_apply]
  cases p.traceOutline m with
  | error halt n => exact ⟨n, rfl, rfl⟩
  | ok _ n =>
    dsimp only
    unfold Exec.andThenTidy
    cases p.forest.roots.forM p.level.execute n with
    | ok _ n => exact ⟨n.closeTrace, rfl, rfl⟩
    | error halt n =>
      cases halt with
      | suspended => exact ⟨n, rfl, rfl⟩
      | fault _ | returned _ => exact ⟨n.closeTrace, rfl, rfl⟩

/-- Every run, from any state in which no scope is open. -/
theorem Program.falls {tokens : List Token} {p : Program}
    (hp : Program.ofTokens tokens = .ok p) {m : Machine} (hnone : m.frames = [])
    (hm : m.Bound) : p.Falls (p.breakOn m) (p.runOn m) := by
  have harrives := arrives_run hp hnone hm
  obtain ⟨ended, hrun, hstates⟩ := p.runOn_closeTrace m
  rw [hrun]
  unfold Program.breakOn
  generalize (p.traceOutline >>= fun _ =>
    p.forest.roots.forM (Level.breaking p levelLimit).execute) m = r at harrives
  generalize (p.traceOutline >>= fun _ => p.forest.roots.forM p.level.execute) m = r'
    at harrives hstates
  cases harrives with
  | ok _ _ => exact .otherwise nofun hstates
  | halted other => exact .otherwise (fun fault heq => other fault (Except.error.inj heq)) hstates
  | @fault raised spot _ framed arises arrives =>
    subst arrives
    cases hunwinds : spot.unwind spot.frames.length with
    | ok closed =>
      rw [hunwinds] at hstates
      exact .fault (blames framed arises) hunwinds hstates
    | error stop => exact .suspended hunwinds

/-- The result of a call is refused just if it does not convert to the declared type. -/
theorem Level.callResult_refuses_iff {f : FunctionDeclaration} {result : Option Operand}
    {function : String} {cause : ConversionFault} {m n : Machine} :
    callResult f result m = .error (.fault (.badResult function cause)) n ↔
      function = f.fullName ∧ ∃ type operand, f.result = some type ∧ result = some operand ∧
        (m.store.reveal operand).convert type = .error (.conversion cause) ∧
        n = { m with refused := some ⟨m.store.reveal operand, type⟩ } := by
  constructor
  · intro h
    cases htype : f.result with
    | none =>
      unfold callResult at h
      rw [htype] at h
      cases h
    | some type =>
      cases result with
      | none =>
        unfold callResult at h
        rw [htype] at h
        cases h
      | some operand =>
        rw [callResult_apply htype] at h
        cases hconvert : (m.store.reveal operand).convert type with
        | ok v =>
          rw [hconvert] at h
          cases h
        | error fault =>
          have hkind := (m.store.reveal operand).told_convert type fault hconvert
          rw [hconvert] at h
          cases fault with
          | conversion cause =>
            cases h
            exact ⟨rfl, type, operand, rfl, rfl, hconvert, rfl⟩
          | numeral fault => cases h
          | _ => exact hkind.elim
  · rintro ⟨rfl, type, operand, htype, rfl, hconvert, rfl⟩
    rw [callResult_apply htype, hconvert]
    rfl

/-- Failures are wrapped once, by the innermost function.  If a run of a built program ends
with a fault, then a fault has been raised in some state of the run, in which the breaking
interpreter stops, and the run ends with that fault as `Program.Blames` says: wrapped by the
function whose call is innermost in that state, and by no other; or unchanged, if it is the
module that is at work or the fault says itself what failed.  The state at the end is that
state with all scopes closed.  Conversely, a fault that is raised ends the run in this way,
if there are ticks left to close the scopes.  Otherwise both interpreters end alike.  A fault
of a result tells just that the result does not convert to the declared type. -/
theorem failures_blamed {tokens : List Token} {p : Program}
    (hp : Program.ofTokens tokens = .ok p) (answers : List String) (interactive : Bool)
    (verbosity ticks : Nat) :
    let m : Machine := { answers, interactive, verbosity, ticks }
    (∀ fault ended, p.runOn m = (.error (.fault fault), ended) →
      ∃ raised spot closed, p.breakOn m = (.error (.fault raised), spot) ∧
        p.Blames raised spot fault ∧ spot.unwind spot.frames.length = .ok closed ∧
        ended.closeTrace = closed.closeTrace) ∧
    (∀ raised spot, p.breakOn m = (.error (.fault raised), spot) →
      spot.frames.length ≤ spot.ticks →
      ∃ fault ended, p.runOn m = (.error (.fault fault), ended) ∧
        p.Blames raised spot fault) ∧
    ((∀ fault, (p.breakOn m).1 ≠ .error (.fault fault)) →
      (p.runOn m).1 = (p.breakOn m).1 ∧
        (p.runOn m).2.closeTrace = (p.breakOn m).2.closeTrace) ∧
    ∀ f result function cause (n n' : Machine),
      Level.callResult f result n = .error (.fault (.badResult function cause)) n' ↔
        function = f.fullName ∧ ∃ type operand, f.result = some type ∧ result = some operand ∧
          (n.store.reveal operand).convert type = .error (.conversion cause) ∧
          n' = { n with refused := some ⟨n.store.reveal operand, type⟩ } := by
  intro m
  have hfalls := Program.falls hp (m := m) rfl fun _ => Variables.holding_nil
  generalize p.runOn m = run at hfalls
  generalize p.breakOn m = stopped at hfalls
  refine ⟨?_, ?_, ?_, fun _ _ _ _ _ _ => Level.callResult_refuses_iff⟩
  · rintro fault ended rfl
    cases hfalls with
    | otherwise other _ => exact absurd rfl (other fault)
    | fault blames unwinds states => exact ⟨_, _, _, rfl, blames, unwinds, states⟩
  · rintro raised spot rfl hticks
    cases hfalls with
    | otherwise other _ => exact absurd rfl (other raised)
    | fault blames _ _ => exact ⟨_, _, rfl, blames⟩
    | suspended unwinds =>
      obtain ⟨n, hn, -⟩ := spot.unwind_ok hticks
      rw [hn] at unwinds
      cases unwinds
  · intro hother
    cases hfalls with
    | otherwise _ states => exact ⟨rfl, states⟩
    | fault _ _ _ | suspended _ => exact absurd rfl (hother _)

/-- The tokens of a program with a function that calls itself and fails in the third call:

    module M;
    function f(integer n) : integer
      if n then return f(n - 1); end if.
      return 1 / n;
    end f.
    begin output f(2); end. -/
def descending : List Token :=
  let word text : Token := { kind := .word, text }
  let number text : Token := { kind := .number, text }
  [.ofKind .moduleWord, word "M", .ofKind .semicolon,
    .ofKind .functionWord, word "f", .ofKind .leftParen, word "integer", word "n",
    .ofKind .rightParen, .ofKind .colon, word "integer",
    .ofKind .ifWord, word "n", .ofKind .thenWord,
    .ofKind .returnWord, word "f", .ofKind .leftParen, word "n", .ofKind .minus, number "1",
    .ofKind .rightParen, .ofKind .semicolon, .ofKind .endWord, .ofKind .ifWord, .ofKind .dot,
    .ofKind .returnWord, number "1", .ofKind .divide, word "n", .ofKind .semicolon,
    .ofKind .endWord, word "f", .ofKind .dot,
    .ofKind .beginWord, .ofKind .outputWord, word "f", .ofKind .leftParen,
    number "2", .ofKind .rightParen, .ofKind .semicolon,
    .ofKind .endWord, .ofKind .dot, .ending]

/-- The division fails while three calls are open, and is wrapped once. -/
theorem failures_blamed_descending : ∃ p raised spot ended,
    Program.ofTokens descending = .ok p ∧
    p.breakOn { ticks := 200 } = (.error (.fault raised), spot) ∧
    raised.message = "division by zero" ∧ spot.frames = [3, 2, 1, 0] ∧
    p.runOn { ticks := 200 } = (.error (.fault (.failedIn "f" raised)), ended) := by
  obtain ⟨p, hp, hbreaks⟩ := Program.exists_ofTokens (fun p =>
    Program.faulted (fun raised spot => raised.message = "division by zero" &&
      (raised.isOwn && (!raised.isExecution && (spot.frames = [3, 2, 1, 0] &&
        (4 ≤ spot.ticks && (spot.environment.scope 3).name = "f")))))
      (p.breakOn { ticks := 200 }))
    (by decide +kernel : (Program.ofTokens descending).toOption.any _ = true)
  obtain ⟨raised, spot, hbreak, hholds⟩ := Program.exists_of_faulted hbreaks
  simp only [Bool.and_eq_true, decide_eq_true_eq, Bool.not_eq_true'] at hholds
  obtain ⟨hmessage, hown, hsimple, hframes, hticks, hname⟩ := hholds
  obtain ⟨fault, ended, hrun, hblames⟩ :=
    (failures_blamed hp [] false 0 200).2.1 raised spot hbreak (by rw [hframes]; exact hticks)
  obtain ⟨number, f, -, hcalled, hwrapped⟩ := hblames.inCall 3 [2, 1, 0] hframes (by simp)
  rw [← hcalled, hname] at hwrapped
  obtain ⟨rfl, -⟩ := hwrapped hown hsimple
  exact ⟨p, raised, spot, ended, hp, hbreak, hmessage, hframes, hrun⟩

end Pseudocode
