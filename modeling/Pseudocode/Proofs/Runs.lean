import Pseudocode.Proofs.Layout.Built
import Pseudocode.Proofs.Steady.Interpreter
import Pseudocode.Proofs.World.Interpreter

/-!
# The states of a run

A run that is given some ticks stops where they are used up, so the states that a
run passes through are the last states of the runs with fewer ticks
(`Program.stateAfter`).  A built program has a chart that agrees with it, and from
the first state on a world describes each of them (`Program.Reaches.admitted`).  The
main theorems read off what this says of variables (`store_typed`), of frames
(`frames_disciplined`) and of names (`names_found_again`).

That types do not change is a statement about two states of one run.  With more ticks a
run only goes on (`Exec.Steady.final_later`), so the later state is later in the sense of
`Machine.Later`, which keeps types.  That frames are opened and closed in order is a
statement about computations and not about states; it is said of any operator that is
executed from a state of a run, with however many ticks (`Exec.Unwinds`).
-/

namespace Pseudocode

open Exec Machine

/-- The state of a run after some ticks, or at its end if that comes earlier. -/
def Program.stateAfter (p : Program) (answers : List String) (interactive : Bool)
    (verbosity ticks : Nat) : Machine :=
  (p.runOn { answers, interactive, verbosity, ticks }).2

/-- Whether a run of a program passes through a state. -/
def Program.Reaches (p : Program) (m : Machine) : Prop :=
  ∃ answers interactive verbosity ticks,
    m = p.stateAfter answers interactive verbosity ticks

/-- The state after some ticks is the one that the run ends in. -/
theorem Program.stateAfter_eq (p : Program) (answers : List String)
    (interactive : Bool) (verbosity ticks : Nat) :
    p.stateAfter answers interactive verbosity ticks =
      p.run.final { answers, interactive, verbosity, ticks } := by
  unfold stateAfter runOn Exec.final
  cases p.run { answers, interactive, verbosity, ticks } <;> rfl

/-- Before anything is run there are no scopes. -/
theorem Machine.tidy_fresh (answers : List String) (interactive : Bool)
    (verbosity ticks : Nat) :
    Machine.Tidy { answers, interactive, verbosity, ticks } :=
  ⟨List.nodup_nil, fun _ hid => (nomatch hid), fun _ _ => rfl⟩

/-- The states of a run are tidy. -/
theorem Program.Reaches.tidy {p : Program} {m : Machine} (h : p.Reaches m) :
    m.Tidy := by
  obtain ⟨answers, interactive, verbosity, ticks, rfl⟩ := h
  rw [p.stateAfter_eq]
  exact ((steady_run p).final (tidy_fresh answers interactive verbosity ticks)).1

/-- The world of a run that has not begun. -/
theorem World.describes_fresh {p : Program} {c : Chart} (answers : List String)
    (interactive : Bool) (verbosity ticks : Nat) :
    World.Describes p c {} { answers, interactive, verbosity, ticks } := by
  refine ⟨rfl, tidy_fresh answers interactive verbosity ticks, rfl, ⟨rfl, ?_⟩, ?_, .inl rfl⟩
  · exact fun _ _ ht => nomatch ht
  · exact fun _ hf => nomatch hf

/-- Some world describes each state of a run. -/
theorem Program.Reaches.admitted {p : Program} {c : Chart} (hlayout : Layout p c)
    (hanchored : Anchored p c) {m : Machine} (h : p.Reaches m) : p.Admits c m := by
  obtain ⟨answers, interactive, verbosity, ticks, rfl⟩ := h
  have hrun := does_run hlayout hanchored rfl _
    (World.describes_fresh answers interactive verbosity ticks)
  unfold stateAfter runOn
  cases hend : p.run { answers, interactive, verbosity, ticks } with
  | ok a m' =>
    rw [hend] at hrun
    obtain ⟨w, hw, -⟩ := hrun
    exact hw.admits
  | error halt m' =>
    rw [hend] at hrun
    cases halt with
    | suspended => exact hrun
    | fault _ | returned _ =>
      obtain ⟨w, hw, -⟩ := hrun
      exact hw.admits

/-- The tokens of a program in which a function declares `x` only if its argument is
not zero.  Called with zero, it finds the `x` of the module, and then it fails:

    module M; variable - integer x := 1;
    function f(integer n) : integer
      if n then variable - integer x := n; end if.
      return x / n;
    end f.
    begin output f(0); end. -/
def dividing : List Token :=
  let word text : Token := { kind := .word, text }
  let number text : Token := { kind := .number, text }
  [.ofKind .moduleWord, word "M", .ofKind .semicolon,
    .ofKind .variableWord, .ofKind .minus, word "integer", word "x",
    .ofKind .assign, number "1", .ofKind .semicolon,
    .ofKind .functionWord, word "f", .ofKind .leftParen, word "integer", word "n",
    .ofKind .rightParen, .ofKind .colon, word "integer",
    .ofKind .ifWord, word "n", .ofKind .thenWord,
    .ofKind .variableWord, .ofKind .minus, word "integer", word "x",
    .ofKind .assign, word "n", .ofKind .semicolon,
    .ofKind .endWord, .ofKind .ifWord, .ofKind .dot,
    .ofKind .returnWord, word "x", .ofKind .divide, word "n", .ofKind .semicolon,
    .ofKind .endWord, word "f", .ofKind .dot,
    .ofKind .beginWord, .ofKind .outputWord, word "f", .ofKind .leftParen,
    number "0", .ofKind .rightParen, .ofKind .semicolon,
    .ofKind .endWord, .ofKind .dot, .ending]

/-- A program that is built, with something that can be computed of it. -/
theorem Program.exists_ofTokens {tokens : List Token} (holds : Program → Bool)
    (h : (ofTokens tokens).toOption.any holds = true) :
    ∃ p, ofTokens tokens = .ok p ∧ holds p = true :=
  exists_ok holds h

/-- Whether a run has ended with a fault, and something holds of it and the machine. -/
def Program.faulted (holds : Fault → Machine → Bool) : Except Halt Unit × Machine → Bool
  | (.error (.fault fault), m) => holds fault m
  | _ => false

/-- What can be computed of a run that failed says that it did. -/
theorem Program.exists_of_faulted {holds : Fault → Machine → Bool}
    {ended : Except Halt Unit × Machine} (h : faulted holds ended = true) :
    ∃ fault m, ended = (.error (.fault fault), m) ∧ holds fault m = true := by
  unfold faulted at h
  split at h
  · exact ⟨_, _, rfl, h⟩
  · cases h

/-! ## Variables

A run is in states that a world describes, and a world gives every variable its type.  That the
types persist is known from the steadiness of the interpreter. -/

/-- Every variable of an open scope is bound to an operand, never to an expression,
and its value is of the variable's type. -/
def Machine.Typed (m : Machine) : Prop :=
  ∀ scope ∈ m.frames, ∀ name v, (name, v) ∈ (m.environment.scope scope).vars.entries →
    ∃ operand, v.binding = some (.held operand) ∧ (m.store.reveal operand).Conforms v.type

/-- A state that a world describes has variables of their types. -/
theorem World.Describes.typed {p : Program} {c : Chart} {w : World} {m : Machine}
    (h : w.Describes p c m) : m.Typed := by
  intro scope hscope name v hv
  rw [h.frames] at hscope
  obtain ⟨f, hf, rfl⟩ := List.mem_map.mp hscope
  obtain ⟨operand, hbinding, hholds⟩ := (h.scopes f hf).held name v hv
  exact ⟨operand, hbinding, h.store.conforms_reveal hholds⟩

/-- The type of a name is that of the variable found under it. -/
theorem Variables.lookup_signature (vars : Variables) (name : String) :
    vars.signature.lookup name = (vars.find? name).map Variable.type := by
  obtain ⟨kind, entries⟩ := vars
  unfold signature Table.find?
  induction entries with
  | nil => rfl
  | cons entry rest ih =>
    obtain ⟨other, v⟩ := entry
    cases hname : name == other with
    | true => simp [List.lookup_cons, hname]
    | false => simpa [List.lookup_cons, hname] using ih

/-- A variable of a scope that is open in an earlier and in a later state has the
same type in both. -/
theorem Machine.Later.type_eq {m m' : Machine} (h : m.Later m') {scope : Nat}
    (hlt : scope < m.environment.scopes.size) (hopen : scope ∈ m'.frames)
    {name : String} {v : Variable}
    (hv : (m.environment.scope scope).vars.find? name = some v) :
    ∃ v', (m'.environment.scope scope).vars.find? name = some v' ∧ v'.type = v.type := by
  -- the old declarations are in front, so that they are found first
  obtain ⟨more, hmore⟩ := h.keeps scope hlt hopen
  have hlookup := Variables.lookup_signature (m'.environment.scope scope).vars name
  rw [← hmore, List.lookup_append, Variables.lookup_signature, hv] at hlookup
  exact Option.map_eq_some_iff.mp hlookup.symm

/-- More ticks only make a run go on. -/
theorem Exec.Steady.final_later {α : Type} {x : Exec α} (h : x.Steady) {m : Machine}
    (hm : m.Tidy) (k : Nat) : (x.final m).Later (x.final (m.granted k)) := by
  have hx := h m hm
  unfold Exec.final at hx ⊢
  cases hend : x m with
  | ok a m' =>
    simp only [hend] at hx ⊢
    rw [hx.2 k]
    exact (alike_granted m' k).later
  | error halt m' =>
    simp only [hend] at hx ⊢
    cases halt with
    | suspended => exact hx.2.2 k
    | fault _ | returned _ =>
      rw [hx.2 k]
      exact (alike_granted m' k).later

/-- A sequence succeeded just if both of its parts did. -/
theorem Exec.bind_eq_ok {α β : Type} {x : Exec α} {f : α → Exec β} {m m' : Machine}
    {b : β} (h : (x >>= f) m = .ok b m') :
    ∃ a m₁, x m = .ok a m₁ ∧ f a m₁ = .ok b m' := by
  rw [bind_apply] at h
  cases hx : x m with
  | ok a m₁ =>
    rw [hx] at h
    exact ⟨a, m₁, rfl, h⟩
  | error halt m₁ =>
    rw [hx] at h
    cases h

/-- A run that was tidied up succeeded before that. -/
theorem Exec.andThenTidy_eq_ok {α : Type} {x : Exec α} {tidy : Machine → Machine}
    {m m' : Machine} {a : α} (h : x.andThenTidy tidy m = .ok a m') :
    ∃ m₁, x m = .ok a m₁ ∧ m' = tidy m₁ := by
  unfold andThenTidy at h
  cases hx : x m with
  | ok b m₁ =>
    rw [hx] at h
    cases h
    exact ⟨m₁, rfl, rfl⟩
  | error halt m₁ =>
    rw [hx] at h
    cases halt <;> cases h

/-- A run with a tick at its end succeeded before that. -/
theorem Exec.thenTick_eq_ok {α : Type} {x : Exec α} {m m' : Machine} {a : α}
    (h : x.thenTick m = .ok a m') :
    ∃ m₁ ticks, x m = .ok a m₁ ∧ m' = { m₁ with ticks } := by
  unfold thenTick at h
  rw [attempt_bind_apply] at h
  cases hx : x m with
  | ok b m₁ =>
    rw [hx] at h
    obtain ⟨_, m₂, htick, hpure⟩ := bind_eq_ok h
    cases hpure
    cases hticks : m₁.ticks with
    | zero =>
      rw [tick_of_zero hticks] at htick
      cases htick
    | succ ticks =>
      rw [tick_of_succ hticks] at htick
      cases htick
      exact ⟨m₁, ticks, rfl, rfl⟩
  | error halt m₁ =>
    rw [hx] at h
    cases halt with
    | suspended => cases h
    | fault _ | returned _ =>
      obtain ⟨_, _, -, hthrow⟩ := bind_eq_ok h
      cases hthrow

/-- Whether what a call of a function gives back is what the function declares. -/
def FunctionDeclaration.Gives (f : FunctionDeclaration) (m : Machine) :
    Option Operand → Prop
  | none => f.result = none
  | some operand => ∃ t, f.result = some t ∧ (m.store.reveal operand).Conforms t

namespace Level

/-- What a call gives back is of the type that its function declares. -/
theorem callResult_gives {f : FunctionDeclaration} {result result' : Option Operand}
    {m m' : Machine} (h : callResult f result m = .ok result' m') :
    f.Gives m' result' := by
  cases hresult : f.result with
  | none =>
    unfold callResult at h
    rw [hresult] at h
    cases h
    exact hresult
  | some t =>
    cases result with
    | none =>
      unfold callResult at h
      rw [hresult] at h
      cases h
    | some operand =>
      rw [callResult_apply hresult] at h
      cases hconvert : (m.store.reveal operand).convert t with
      | error fault =>
        rw [hconvert] at h
        cases h
      | ok v =>
        rw [hconvert] at h
        cases h
        refine ⟨t, hresult, ?_⟩
        show ((m.store.keep v).2.reveal (m.store.keep v).1).Conforms t
        rw [Store.reveal_keep]
        exact Value.conforms_convert hconvert

/-- So is what it gives when it is entered. -/
theorem enterCall_gives {p : Program} {below : Level} {f : FunctionDeclaration}
    {arguments : List Operand} {m m' : Machine} {result : Option Operand}
    (h : enterCall p below f arguments m = .ok result m') : f.Gives m' result := by
  obtain ⟨module, m₁, -, h⟩ := bind_eq_ok h
  obtain ⟨bound, m₂, -, h⟩ := bind_eq_ok h
  rw [within_apply] at h
  obtain ⟨m₃, hticked, rfl⟩ := andThenTidy_eq_ok h
  obtain ⟨m₄, ticks, hinner, rfl⟩ := thenTick_eq_ok hticked
  obtain ⟨_, m₅, -, hinner⟩ := bind_eq_ok hinner
  obtain ⟨result', m₆, -, hinner⟩ := bind_eq_ok hinner
  have hgives := callResult_gives hinner
  -- closing the scope leaves the arrays alone
  have hstore : (popScope { m₄ with ticks }).store = m₄.store := by
    unfold popScope
    split <;> rfl
  unfold FunctionDeclaration.Gives at hgives ⊢
  rwa [hstore]

/-- Every call gives back what its function declares. -/
theorem callNode_gives {p : Program} {below : Level} {callee : Callee}
    {arguments : List Operand} {m m' : Machine} {result : Option Operand}
    (h : callNode p below callee arguments m = .ok result m') :
    (p.function callee).Gives m' result := by
  unfold callNode at h
  dsimp only at h
  rw [apply_ite (fun x : Exec (Option Operand) => x m)] at h
  split at h
  · obtain ⟨_, _, hfail, -⟩ := bind_eq_ok h
    cases hfail
  · exact enterCall_gives h

end Level

/-- Variables hold values of their types.  In every state of every run each variable
of an open scope is bound to a value of its declared type, a variable's type stays
the same while its scope is open, and a call gives back a value of the type that its
function declares. -/
theorem store_typed {tokens : List Token} {p : Program}
    (h : Program.ofTokens tokens = .ok p) :
    (∀ m, p.Reaches m → m.Typed) ∧
    (∀ answers interactive verbosity ticks more scope name v,
      let m := p.stateAfter answers interactive verbosity ticks
      let m' := p.stateAfter answers interactive verbosity (ticks + more)
      scope ∈ m.frames → scope ∈ m'.frames →
      (m.environment.scope scope).vars.find? name = some v →
      ∃ v', (m'.environment.scope scope).vars.find? name = some v' ∧
        v'.type = v.type) ∧
    ∀ depth callee arguments m m' result,
      (Level.running p depth).call callee arguments m = .ok result m' →
      (p.function callee).Gives m' result := by
  obtain ⟨c, hlayout, hanchored⟩ := Program.ofTokens_layout h
  refine ⟨fun m hm => ?_, ?_, ?_⟩
  · obtain ⟨⟨w, hw⟩, -⟩ := hm.admitted hlayout hanchored
    exact hw.typed
  · intro answers interactive verbosity ticks more scope name v m m' hopen hopen' hv
    have htidy := tidy_fresh answers interactive verbosity ticks
    have hlater := (steady_run p).final_later htidy more
    rw [← p.stateAfter_eq] at hlater
    -- the later state is that of the same run, which has been granted more ticks
    have hgranted : p.run.final (granted { answers, interactive, verbosity, ticks } more) =
        m' := (p.stateAfter_eq answers interactive verbosity (ticks + more)).symm
    rw [hgranted] at hlater
    have hmade : scope < m.environment.scopes.size :=
      Program.Reaches.tidy ⟨_, _, _, _, rfl⟩ |>.made scope hopen
    exact hlater.type_eq hmade hopen' hv
  · intro depth callee arguments m m' result hcall
    cases depth with
    -- no level is left below, and the call fails
    | zero => cases hcall
    | succ depth => exact Level.callNode_gives hcall

/-- In the middle of a call there are two frames, and a variable of the module has had its
type since before the call. -/
theorem store_typed_dividing : ∃ p, Program.ofTokens dividing = .ok p ∧
    (p.stateAfter [] false 0 14).frames = [1, 0] ∧ (p.stateAfter [] false 0 14).Typed ∧
    ∃ v v', ((p.stateAfter [] false 0 8).environment.scope 0).vars.find? "x" = some v ∧
      ((p.stateAfter [] false 0 14).environment.scope 0).vars.find? "x" = some v' ∧
      v'.type = v.type := by
  obtain ⟨p, hp, hruns⟩ := Program.exists_ofTokens (fun p =>
    (p.stateAfter [] false 0 8).frames = [1, 0] &&
    ((p.stateAfter [] false 0 14).frames = [1, 0] &&
      (((p.stateAfter [] false 0 8).environment.scope 0).vars.find? "x").isSome))
    (by decide +kernel : (Program.ofTokens dividing).toOption.any _ = true)
  simp only [Bool.and_eq_true, decide_eq_true_eq] at hruns
  obtain ⟨hframes, hframes', hsome⟩ := hruns
  obtain ⟨v, hv⟩ := Option.isSome_iff_exists.mp hsome
  obtain ⟨htyped, hkeeps, -⟩ := store_typed hp
  refine ⟨p, hp, hframes', htyped _ ⟨_, _, _, _, rfl⟩, v, ?_⟩
  obtain ⟨v', hv', htype⟩ := hkeeps [] false 0 8 6 0 "x" v
    (by rw [hframes]; simp) (by rw [hframes']; simp) hv
  exact ⟨v', hv, hv', htype⟩

/-! ## Frames

Steadiness says that the frames are the same behind a computation as before it; the world says
what they are in between. -/

/-- Whether a computation, however it ends, leaves the stack of frames as it found
it, and no variable in any scope that it opened. -/
def Exec.Unwinds {α : Type} (x : Exec α) (m : Machine) : Prop :=
  match x m with
  | .error .suspended _ => True
  | .ok _ m' | .error _ m' =>
    m'.frames = m.frames ∧ ∀ scope, m.environment.scopes.size ≤ scope →
      (m'.environment.scope scope).vars.entries = []

/-- What is steady opens and closes frames in order. -/
theorem Exec.Steady.unwinds {α : Type} {x : Exec α} (h : x.Steady) {m : Machine}
    (hm : m.Tidy) : x.Unwinds m := by
  have hx := h m hm
  have hkept : ∀ {m' : Machine}, m.Kept m' → m'.frames = m.frames ∧
      ∀ scope, m.environment.scopes.size ≤ scope →
        (m'.environment.scope scope).vars.entries = [] := by
    refine fun hkept => ⟨hkept.frames, fun scope hle => hkept.tidy.closed scope ?_⟩
    rw [hkept.frames]
    exact fun hopen => absurd (hm.made scope hopen) (Nat.not_lt.mpr hle)
  unfold Exec.Unwinds
  cases hend : x m with
  | ok a m' =>
    simp only [hend] at hx ⊢
    exact hkept hx.1
  | error halt m' =>
    simp only [hend] at hx ⊢
    cases halt with
    | suspended => trivial
    | fault _ | returned _ => exact hkept hx.1

/-- Whether the open scopes are those of calls and, below them, that of a module of
the program, the one on record under its name; or no scope is open. -/
def Machine.Stacked (p : Program) (m : Machine) : Prop :=
  m.frames = [] ∨ ∃ calls root, m.frames = calls ++ [root] ∧
    (m.environment.scope root).outer = [] ∧
    (∃ (k : Nat) (d : ModuleDeclaration), p.modules[k]? = some d ∧
      (m.environment.scope root).name = d.name ∧ m.modules.lookup d.name = some root) ∧
    ∀ call ∈ calls, (m.environment.scope call).outer = [root]

/-- The frames that a world tells of are a module and calls in it. -/
theorem World.Describes.stacked {p : Program} {c : Chart} {w : World} {m : Machine}
    (h : w.Describes p c m) : m.Stacked p := by
  obtain hnone | ⟨calls, root, hshape, hstack⟩ := h.stack
  · exact .inl (by rw [h.frames, hnone]; rfl)
  · obtain ⟨d, hd, hname, hlookup⟩ := hstack.module
    refine .inr ⟨calls.map Frame.scope, root.scope, ?_, hstack.outer,
      ⟨root.code.module, d, hd, hname, hlookup⟩, ?_⟩
    · rw [h.frames, hshape, List.map_append]
      rfl
    · intro call hcall
      obtain ⟨f, hf, rfl⟩ := List.mem_map.mp hcall
      exact (hstack.calls f hf).1

/-- Frames are opened and closed in order.  From every state of every run, executing
an operator leaves the stack as it was, and the scopes that it opened empty; the
stack is always that of a module and of calls in it; and when a run is over, the
stack and the scopes of all modules are empty. -/
theorem frames_disciplined {tokens : List Token} {p : Program}
    (h : Program.ofTokens tokens = .ok p) :
    (∀ m, p.Reaches m → ∀ ticks depth index,
      ((Level.running p depth).execute index).Unwinds { m with ticks }) ∧
    (∀ m, p.Reaches m → m.Stacked p) ∧
    ∀ answers interactive verbosity ticks,
      let ended := p.runOn { answers, interactive, verbosity, ticks }
      ended.1 ≠ .error .suspended → ended.2.frames = [] ∧
        ∀ name scope, (name, scope) ∈ ended.2.modules →
          (ended.2.environment.scope scope).vars.entries = [] := by
  obtain ⟨c, hlayout, hanchored⟩ := Program.ofTokens_layout h
  refine ⟨fun m hm ticks depth index => ?_, fun m hm => ?_, ?_⟩
  · have halike : m.Alike { m with ticks } := ⟨rfl, rfl⟩
    exact ((steady_running p depth).execute index).unwinds (halike.tidy hm.tidy)
  · obtain ⟨⟨w, hw⟩, -⟩ := hm.admitted hlayout hanchored
    exact hw.stacked
  · intro answers interactive verbosity ticks ended hended
    have hunwinds := (steady_run p).unwinds
      (tidy_fresh answers interactive verbosity ticks)
    have hends : ended = p.runOn { answers, interactive, verbosity, ticks } := rfl
    unfold Program.runOn at hends
    unfold Exec.Unwinds at hunwinds
    cases hrun : p.run { answers, interactive, verbosity, ticks } with
    | ok a m' =>
      simp only [hrun] at hunwinds hends
      rw [hends]
      exact ⟨hunwinds.1, fun _ scope _ => hunwinds.2 scope (Nat.zero_le _)⟩
    | error halt m' =>
      simp only [hrun] at hunwinds hends
      rw [hends] at hended ⊢
      cases halt with
      | suspended => exact absurd rfl hended
      | fault _ | returned _ =>
        exact ⟨hunwinds.1, fun _ scope _ => hunwinds.2 scope (Nat.zero_le _)⟩

/-- The division fails in the call, and both scopes are closed behind it. -/
theorem frames_disciplined_dividing : ∃ p m fault,
    Program.ofTokens dividing = .ok p ∧
    p.runOn { ticks := 30 } = (.error (.fault fault), m) ∧ m.modules = [("M", 0)] ∧
    m.frames = [] ∧ (m.environment.scope 0).vars.entries = [] := by
  obtain ⟨p, hp, hruns⟩ := Program.exists_ofTokens (fun p =>
    Program.faulted (fun _ m => m.modules = [("M", 0)]) (p.runOn { ticks := 30 }))
    (by decide +kernel : (Program.ofTokens dividing).toOption.any _ = true)
  obtain ⟨fault, m, hrun, hholds⟩ := Program.exists_of_faulted hruns
  have hends := (frames_disciplined hp).2.2 [] false 0 30
  rw [hrun] at hends
  obtain ⟨hframes, hclosed⟩ := hends (by simp)
  have hmodules := decide_eq_true_eq.mp hholds
  exact ⟨p, m, fault, hp, hrun, hmodules, hframes,
    hclosed "M" 0 (by rw [hmodules]; simp)⟩

/-! ## Names

What the builder found under a name, the run finds under it, unless a declaration stands in code
that was not executed. -/

/-- A name that has a home is found. -/
theorem Machine.lookup_ok_of_homeOf {m : Machine} {a : Access} {home : Home}
    (h : m.homeOf a = some home) :
    ∃ v, m.environment.lookup a.scope a.target.name = .ok v := by
  obtain ⟨scope, howner, -⟩ := Option.map_eq_some_iff.mp h
  obtain ⟨v, hv⟩ := Option.isSome_iff_exists.mp (has_of_owner? howner)
  refine ⟨v, ?_⟩
  unfold Environment.lookup Environment.find?
  rw [howner, Option.bind_some, hv]

/-- Names are found where they were found when the program was built, doubtful ones
apart.  Whenever a run is about to look up a variable, and the name cannot be found,
or is found in a call instead of the module or the other way round, then the
function around the occurrence or its module declares the name inside a loop or a
conditional. -/
theorem names_found_again {tokens : List Token} {p : Program}
    (h : Program.ofTokens tokens = .ok p) {m : Machine} (hm : p.Reaches m)
    {a : Access} (ha : m.pending = some a) :
    ∃ site, a.target.site = some site ∧
      ((∃ fault, m.environment.lookup a.scope a.target.name = .error fault) ∨
          (∃ home, m.homeOf a = some home ∧ home ≠ site.home) →
        p.DeclaresConditionally ⟨site.module, site.function⟩ a.target.name ∨
          p.DeclaresConditionally ⟨site.module, none⟩ a.target.name) := by
  obtain ⟨c, hlayout, hanchored⟩ := Program.ofTokens_layout h
  obtain ⟨-, hexplains⟩ := hm.admitted hlayout hanchored
  obtain ⟨site, hsite, hhome | hconditional⟩ := hexplains a ha
  · refine ⟨site, hsite, ?_⟩
    rintro (⟨fault, hfault⟩ | ⟨home, hfound, hne⟩)
    · obtain ⟨v, hv⟩ := lookup_ok_of_homeOf hhome
      rw [hv] at hfault
      cases hfault
    · rw [hhome] at hfound
      exact absurd (Option.some.inj hfound).symm hne
  · exact ⟨site, hsite, fun _ => hconditional⟩

/-- When `x` is divided, it is found in the module, although the function's own one
was found when the program was built. -/
theorem names_found_again_dividing : ∃ p m a, Program.ofTokens dividing = .ok p ∧
    p.Reaches m ∧ m.pending = some a ∧ a.target.name = "x" ∧
    m.homeOf a = some .module ∧
    (p.DeclaresConditionally ⟨0, some 0⟩ "x" ∨
      p.DeclaresConditionally ⟨0, none⟩ "x") := by
  obtain ⟨p, hp, hruns⟩ := Program.exists_ofTokens (fun p =>
    (p.stateAfter [] false 0 14).pending =
      some ⟨1, "x", some ⟨0, some 0, .call⟩⟩ &&
    (p.stateAfter [] false 0 14).homeOf ⟨1, "x", some ⟨0, some 0, .call⟩⟩ =
      some .module)
    (by decide +kernel : (Program.ofTokens dividing).toOption.any _ = true)
  simp only [Bool.and_eq_true, decide_eq_true_eq] at hruns
  obtain ⟨hpending, hhome⟩ := hruns
  refine ⟨p, _, _, hp, ⟨_, _, _, _, rfl⟩, hpending, rfl, hhome, ?_⟩
  obtain ⟨site, hsite, hdoubtful⟩ := names_found_again hp ⟨_, _, _, _, rfl⟩ hpending
  cases hsite
  exact hdoubtful (.inr ⟨.module, hhome, by decide⟩)

end Pseudocode
