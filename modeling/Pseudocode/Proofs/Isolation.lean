import Pseudocode.Proofs.Fork.Interpreter
import Pseudocode.Proofs.Runs

/-!
# Calls are isolated from their callers

A call is run twice, from a state of a run and from one with anything else in the frames
of the callers (`Machine.Recast`).  The two states are a fork, so the runs agree in all
that can be seen of a call, its account, and leave alone all that is hidden (`agree_call`,
`call_spares`).  The arguments are hidden, too, if they are arrays of a caller; but
parameters are bound to copies, so a call has only their values (`Level.call_values`).

The account (`Exec.account`) is what a caller can learn: how the call ended and with which
value, what was written since, how the answers and the modules stand.  Arrays are shown in it
by their slots, not by their cells, which may be numbered differently in the two runs.

That a call changes only what it may is not a statement about two runs, but follows from one:
what a fork hides is left alone in both of its runs, and a call from any state is one run of
the fork of this state with itself (`Separate.recast_self`).

> `bindParameters_cases`, `enterCall_cases`: how a call can fail before its body runs, and
> from which state the body runs otherwise.
-/

namespace Pseudocode

open Exec Machine Fork

/-! ## What can be seen of a state -/

/-- The variables of a table as they are at this moment: their names, their types and
what they are bound to. -/
def Variables.contents (s : Store) (vars : Variables) :
    List (String × DeclaredType × Option Expr) :=
  vars.entries.map fun entry =>
    (entry.1, entry.2.type, entry.2.binding.map (Binding.expr s))

/-- Only the arrays that the variables hold matter. -/
theorem Variables.contents_congr {s s' : Store} {vars : Variables}
    (h : ∀ address, vars.Holds address → s'.slots address = s.slots address) :
    vars.contents s' = vars.contents s := by
  refine List.map_congr_left fun entry hentry => ?_
  have hexpr : entry.2.binding.map (Binding.expr s') =
      entry.2.binding.map (Binding.expr s) := by
    cases hbinding : entry.2.binding with
    | none => rfl
    | some binding =>
      cases binding with
      | deferred e => rfl
      | held operand =>
        cases operand with
        | value v => rfl
        | cell address =>
          have hslots := h address ⟨entry.1, entry.2, hentry, hbinding⟩
          simp only [Option.map_some, Binding.expr, Store.reveal, hslots]
  rw [hexpr]

/-- The variables of a scope as they are at this moment. -/
def Machine.contents (m : Machine) (scope : Nat) :
    List (String × DeclaredType × Option Expr) :=
  (m.environment.scope scope).vars.contents m.store

/-- An event with the value of its operand at this moment. -/
def Event.revealed (s : Store) : Event → Event
  | written operand text => written (.value (s.reveal operand)) text
  | event => event

/-- A reason to end with the value of what is given back at this moment. -/
def Halt.revealed (s : Store) : Halt → Halt
  | returned result => returned (result.map fun operand => .value (s.reveal operand))
  | halt => halt

/-- What can be seen of a call: how it ends, what it adds to the log, which answers it
leaves, and the variables of the modules behind it. -/
structure Account where
  outcome : Except Halt (Option Value)
  events : List Event
  answers : List String
  modules : List (String × List (String × DeclaredType × Option Expr))

/-- The account of a call that ended in a state. -/
def Machine.account (m m' : Machine) (outcome : Except Halt (Option Value)) : Account where
  outcome
  events := (m'.log.toList.drop m.log.toList.length).map (Event.revealed m'.store)
  answers := m'.answers
  modules := m'.modules.map fun entry => (entry.1, m'.contents entry.2)

/-- The account of a call. -/
def Exec.account (x : Exec (Option Operand)) (m : Machine) : Account :=
  match x m with
  | .ok result m' => m.account m' (.ok (result.map m'.store.reveal))
  | .error halt m' => m.account m' (.error (halt.revealed m'.store))

namespace Fork

variable {k : Fork} {frames : List Nat} {m n : Machine}

/-- What variables are bound to shows the same. -/
theorem Bindings.expr_eq {s s' : Store} (hstores : k.Stores s s')
    {binding binding' : Option Binding} (h : k.Bindings binding binding') :
    binding'.map (Binding.expr s') = binding.map (Binding.expr s) := by
  cases h with
  | none => rfl
  | deferred e => rfl
  | held hoperands =>
    show some (Expr.literal _) = some (Expr.literal _)
    rw [hstores.reveal hoperands]

/-- Tables that correspond have the same contents. -/
theorem Tables.contents_eq {s s' : Store} (hstores : k.Stores s s') {t t' : Variables}
    (h : k.Tables t t') : t'.contents s' = t.contents s := by
  obtain ⟨-, hentries⟩ := h
  unfold Variables.contents
  generalize t.entries = entries at hentries
  generalize t'.entries = entries' at hentries
  induction hentries with
  | nil => rfl
  | cons hentry _ ih =>
    obtain ⟨hname, htype, hbinding⟩ := hentry
    rw [List.map_cons, List.map_cons, ih, hname, htype, hbinding.expr_eq hstores]

/-- Events that correspond are the same when their operands are shown. -/
theorem Events.revealed_eq {s s' : Store} (hstores : k.Stores s s') {event event' : Event}
    (h : k.Events event event') : event'.revealed s' = event.revealed s := by
  cases h with
  | written hoperands text =>
    show Event.written _ _ = Event.written _ _
    rw [hstores.reveal hoperands]
  | prompted _ | traced _ | noticed _ => rfl

namespace Paired

/-- A scope that is seen has the same contents in both runs. -/
theorem contents_eq (h : k.Paired frames m n) {scope : Nat} (hseen : k.Sees scope) :
    n.contents scope = m.contents scope :=
  (h.environments.scopes scope hseen).vars.contents_eq h.stores

/-- What has been written since the fork shows the same. -/
theorem events_eq (h : k.Paired frames m n) :
    (n.log.toList.drop k.right.log.toList.length).map (Event.revealed n.store) =
      (m.log.toList.drop k.left.log.toList.length).map (Event.revealed m.store) := by
  obtain ⟨events, events', hlog, hlog', hall⟩ := h.log
  rw [hlog, hlog', List.drop_left, List.drop_left]
  clear hlog hlog'
  induction hall with
  | nil => rfl
  | cons hevent _ ih => rw [List.map_cons, List.map_cons, ih, hevent.revealed_eq h.stores]

/-- So the account of both runs is the same. -/
theorem account_eq (h : k.Paired frames m n) (outcome : Except Halt (Option Value)) :
    k.right.account n outcome = k.left.account m outcome := by
  have hmodules : n.modules = m.modules := by rw [h.rest]
  have hanswers : n.answers = m.answers := by rw [h.rest]
  unfold Machine.account
  rw [h.events_eq, hmodules, hanswers]
  congr 1
  refine List.map_congr_left fun entry hentry => ?_
  rw [h.contents_eq (h.recorded entry.2 ⟨entry.1, hentry⟩)]

/-- Results that correspond have the same value. -/
theorem results_eq (h : k.Paired frames m n) {result result' : Option Operand}
    (hresults : Option.Rel k.Operands result result') :
    result'.map n.store.reveal = result.map m.store.reveal := by
  cases hresults with
  | none => rfl
  | some hoperands => exact congrArg some (h.reveal_eq hoperands)

end Paired

/-- Calls that agree have the same account. -/
theorem Agree.account_eq {x x' : Exec (Option Operand)}
    (h : k.Agree frames (fun _ => Option.Rel k.Operands) (x k.left) (x' k.right)) :
    x'.account k.right = x.account k.left := by
  unfold Exec.account
  generalize x k.left = r at h
  generalize x' k.right = r' at h
  cases h with
  | ok results paired =>
    show k.right.account _ (.ok _) = k.left.account _ (.ok _)
    rw [paired.results_eq results]
    exact paired.account_eq _
  | fault fault paired => exact paired.account_eq _
  | returned results paired =>
    have hvalue := congrArg (Option.map Operand.value) (paired.results_eq results)
    rw [Option.map_map, Option.map_map] at hvalue
    show k.right.account _ (.error (.returned (Option.map (Operand.value ∘ _) _))) = _
    rw [hvalue]
    exact paired.account_eq _
  | suspended paired => exact paired.account_eq _

end Fork

/-! ## Other frames for the callers -/

/-- Whether a state is another one with anything else in its frames: just as many are
open, and the scopes of modules and the arrays in them are the same, as is all that a
run reads from outside. -/
structure Machine.Recast (m n : Machine) : Prop where
  rest : n = { m with
    environment := n.environment, store := n.store, log := n.log, pending := n.pending,
    refused := n.refused }
  size : n.environment.scopes.size = m.environment.scopes.size
  modules : ∀ scope, m.Records scope → n.environment.scope scope = m.environment.scope scope
  arrays : ∀ scope address, m.Records scope → m.Holds scope address →
    address < n.store.cells.size ∧ n.store.slots address = m.store.slots address

namespace Machine

variable {m n : Machine}

/-- A state is a recast of itself. -/
theorem Separate.recast_self (h : m.Separate) : m.Recast m :=
  ⟨rfl, rfl, fun _ _ => rfl, fun scope address _ hholds => ⟨h.made scope address hholds, rfl⟩⟩

/-- Any change in a scope that is not that of a module. -/
theorem Separate.recast_modify (h : m.Separate) {id : Nat} (hid : ¬ m.Records id)
    (change : Variables → Variables) :
    m.Recast { m with environment := m.environment.modifyVariables id change } := by
  refine ⟨rfl, Environment.size_modifyVariables change, fun scope hrecords => ?_,
    fun scope address _ hholds => ⟨h.made scope address hholds, rfl⟩⟩
  have hne : scope ≠ id := fun heq => hid (heq ▸ hrecords)
  exact Environment.scope_modifyVariables_ne change hne

/-- Such states are a fork. -/
theorem Recast.paired (h : m.Recast n) (hm : m.Separate) :
    Fork.Paired ⟨m, n⟩ m.frames m n := by
  refine ⟨h.rest, rfl, fun scope hrecords => .inl hrecords,
    ⟨h.size, Nat.le_refl _, fun scope hseen => ?_, fun scope _ => rfl⟩,
    ⟨⟨0, rfl, rfl⟩, fun a b hcells => ?_, fun a _ _ => rfl⟩, hm, [], [], ?_, ?_, .nil⟩
  · rcases hseen with hrecords | hle
    · rw [h.modules scope hrecords]
      obtain ⟨-, houter⟩ := hm.recorded scope hrecords
      refine ⟨rfl, rfl, fun id hid => ?_, .refl fun address hholds => ?_⟩
      · rw [houter] at hid
        cases hid
      · exact .old hrecords hholds (hm.made scope address hholds)
          (h.arrays scope address hrecords hholds).1
    · have hle' : n.environment.scopes.size ≤ scope := h.size ▸ hle
      rw [Environment.scope_of_le hle, Environment.scope_of_le hle']
      exact ⟨rfl, rfl, nofun, tables_empty⟩
  · cases hcells with
    | old hrecords hholds _ _ => exact (h.arrays _ _ hrecords hholds).2
    | new j => simp [Store.slots]
  · rw [List.append_nil]
  · rw [List.append_nil]

/-- Before anything is run there are no arrays. -/
theorem separate_fresh (answers : List String) (interactive : Bool)
    (verbosity ticks : Nat) :
    Separate { answers, interactive, verbosity, ticks } :=
  ⟨fun _ _ hholds => absurd hholds Variables.not_holds_empty,
    fun _ _ _ hholds => absurd hholds Variables.not_holds_empty, nofun⟩

end Machine

/-- In every state of a run, the variables of different scopes hold different arrays. -/
theorem Program.Reaches.separate {p : Program} {m : Machine} (h : p.Reaches m) :
    m.Separate := by
  obtain ⟨answers, interactive, verbosity, ticks, rfl⟩ := h
  have hfresh := separate_fresh answers interactive verbosity ticks
  have hagree := parallel_run _ p _ _ (hfresh.recast_self.paired hfresh)
  rw [p.stateAfter_eq]
  obtain ⟨inner, hpaired⟩ := hagree.final
  exact hpaired.separate

/-! ## Arguments

An argument that is an array of a caller is converted to the parameter's type, and that gives
an array of its own.  So only the values of the arguments matter. -/

namespace Level

/-- The first parameter is bound to its argument, converted, or the call fails for it. -/
theorem bindParameters_cons (q : Parameter) (parameters : List Parameter) (a : Operand)
    (arguments : List Operand) (bound : Variables) (m : Machine) :
    bindParameters (q :: parameters) (a :: arguments) bound m =
      match (m.store.reveal a).convert q.type with
      | .error fault =>
        .error (.fault fault) { m with refused := some ⟨m.store.reveal a, q.type⟩ }
      | .ok v =>
        let m' := { m with store := (m.store.keep v).2 }
        match bound.declare q.name ⟨q.type, some (.held (m.store.keep v).1)⟩ with
        | .error fault => .error (.fault fault) m'
        | .ok bound => bindParameters parameters arguments bound m' := by
  rw [bindParameters, bind_apply, convert_apply]
  cases (m.store.reveal a).convert q.type with
  | error fault => rfl
  | ok v =>
    dsimp only
    rw [bind_apply]
    cases bound.declare q.name ⟨q.type, some (.held (m.store.keep v).1)⟩ <;> rfl

/-- The values that operands stand for, as operands of their own. -/
def values (m : Machine) (operands : List Operand) : List Operand :=
  operands.map fun operand => .value (m.store.reveal operand)

/-- Parameters are bound to copies, so of the arguments only the values matter. -/
theorem bindParameters_values : ∀ (parameters : List Parameter) {arguments : List Operand}
    {m : Machine}, (∀ operand ∈ arguments, m.store.Made operand) → ∀ bound,
      bindParameters parameters (values m arguments) bound m =
        bindParameters parameters arguments bound m := by
  intro parameters
  induction parameters with
  | nil => exact fun _ _ => rfl
  | cons q parameters ih =>
    intro arguments m hmade bound
    cases arguments with
    | nil => rfl
    | cons a arguments =>
      obtain ⟨-, hmade⟩ := List.forall_mem_cons.mp hmade
      show bindParameters _ (.value (m.store.reveal a) :: values m arguments) bound m = _
      rw [bindParameters_cons, bindParameters_cons]
      show (match (m.store.reveal a).convert q.type with
        | .error _ => _
        | .ok _ => _) = _
      cases (m.store.reveal a).convert q.type with
      | error fault => rfl
      | ok v =>
        -- what is kept for this parameter does not touch the other arguments
        have hsame : values m arguments =
            values { m with store := (m.store.keep v).2 } arguments :=
          List.map_congr_left fun operand hoperand => by
            rw [Store.reveal_keep_of_made (hmade operand hoperand)]
        have hmade' : ∀ operand ∈ arguments, (m.store.keep v).2.Made operand :=
          fun operand hoperand => (hmade operand hoperand).keep v
        dsimp only
        cases bound.declare q.name ⟨q.type, some (.held (m.store.keep v).1)⟩ with
        | error fault => rfl
        | ok bound =>
          dsimp only
          rw [hsame]
          exact ih hmade' bound

/-- A call that is entered has only the values of its arguments. -/
theorem enterCall_values (p : Program) (below : Level) (f : FunctionDeclaration)
    {arguments : List Operand} {m : Machine}
    (hmade : ∀ operand ∈ arguments, m.store.Made operand) :
    enterCall p below f (values m arguments) m = enterCall p below f arguments m := by
  unfold enterCall
  rw [bind_apply, bind_apply, moduleScope_apply]
  cases m.modules.lookup f.module with
  | none => rfl
  | some module =>
    dsimp only
    rw [bind_apply, bind_apply, bindParameters_values f.parameters hmade]

/-- So has every call. -/
theorem call_values (p : Program) (depth : Nat) (callee : Callee)
    {arguments : List Operand} {m : Machine}
    (hmade : ∀ operand ∈ arguments, m.store.Made operand) :
    (running p depth).call callee (values m arguments) m =
      (running p depth).call callee arguments m := by
  cases depth with
  | zero => rfl
  | succ depth =>
    have henter := enterCall_values p (running p depth) (p.function callee) hmade
    have hlength : (values m arguments).length = arguments.length := List.length_map _
    show callNode p (running p depth) callee _ m = callNode p (running p depth) callee _ m
    unfold callNode
    dsimp only
    rw [hlength]
    split
    · rfl
    · exact henter

/-! ## Where a call starts

All that goes wrong before the body runs goes wrong alike in both runs, and the body starts in
states that correspond. -/

/-- Arguments converted to the types of parameters. -/
def converted (parameters : List Parameter) (arguments : List Value) :
    Except Fault (List Value) :=
  (parameters.zip arguments).mapM fun pair => pair.2.convert pair.1.type

/-- Parameters bound to values, and nothing else. -/
def bound (parameters : List Parameter) (values : List Value) :
    List (String × DeclaredType × Option Expr) :=
  parameters.zipWith (fun q v => (q.name, q.type, some (.literal v))) values

/-- A first argument that converts, in front of others that do. -/
theorem converted_cons {q : Parameter} {parameters : List Parameter} {a v : Value}
    {arguments values : List Value} (hv : a.convert q.type = .ok v)
    (hvalues : converted parameters arguments = .ok values) :
    converted (q :: parameters) (a :: arguments) = .ok (v :: values) := by
  unfold converted at hvalues ⊢
  rw [List.zip_cons_cons, List.mapM_cons, hvalues]
  dsimp only
  rw [hv]
  rfl

section

variable {vars : Variables} {name : String} {t : DeclaredType} {v : Value} {m : Machine}
  (hvars : ∀ address, vars.Holds address → address < m.store.cells.size)

include hvars

/-- Of a table to which a variable is added, all arrays are in cells that have been made. -/
theorem holds_lt_of_append (address : Nat)
    (h : Variables.Holds { vars with
      entries := vars.entries ++ [(name, ⟨t, some (.held (m.store.keep v).1)⟩)] } address) :
    address < (m.store.keep v).2.cells.size := by
  obtain hholds | hbinding := Variables.holds_append h
  · exact Nat.lt_of_lt_of_le (hvars address hholds) (m.store.size_keep v)
  · have hmade := m.store.made_keep v
    rw [Binding.held.inj (Option.some.inj hbinding)] at hmade
    exact hmade

/-- A variable more, which is bound to a value that was kept. -/
theorem contents_append :
    Variables.contents (m.store.keep v).2 { vars with
      entries := vars.entries ++ [(name, ⟨t, some (.held (m.store.keep v).1)⟩)] } =
      vars.contents m.store ++ [(name, t, some (.literal v))] := by
  have hold : vars.contents (m.store.keep v).2 = vars.contents m.store := by
    refine Variables.contents_congr fun address hholds => ?_
    have hmade : m.store.Made (.cell address) := hvars address hholds
    exact Value.array.inj (Store.reveal_keep_of_made hmade v)
  rw [← hold]
  unfold Variables.contents
  rw [List.map_append]
  simp only [List.map_cons, List.map_nil, Option.map_some, Binding.expr, Store.reveal_keep]

end

/-- Parameters are bound to the converted arguments, and nothing but the store changes;
otherwise an argument has no value of its parameter's type, which is kept. -/
theorem bindParameters_cases : ∀ (parameters : List Parameter) {arguments : List Operand}
    {vars : Variables} {m : Machine}, (∀ operand ∈ arguments, m.store.Made operand) →
    (∀ address, vars.Holds address → address < m.store.cells.size) →
    (∃ fault store refused, bindParameters parameters arguments vars m =
      .error (.fault fault) { m with store, refused }) ∨
    ∃ values vars' store, converted parameters (arguments.map m.store.reveal) = .ok values ∧
      bindParameters parameters arguments vars m = .ok vars' { m with store } ∧
      vars'.contents store = vars.contents m.store ++ bound parameters values := by
  intro parameters
  induction parameters with
  | nil =>
    intro arguments vars m _ _
    exact .inr ⟨[], vars, m.store, rfl, rfl, (List.append_nil _).symm⟩
  | cons q parameters ih =>
    intro arguments vars m hmade hvars
    cases arguments with
    | nil => exact .inr ⟨[], vars, m.store, rfl, rfl, (List.append_nil _).symm⟩
    | cons a arguments =>
      obtain ⟨-, hmade⟩ := List.forall_mem_cons.mp hmade
      rw [bindParameters_cons]
      cases hv : (m.store.reveal a).convert q.type with
      | error fault => exact .inl ⟨fault, m.store, _, rfl⟩
      | ok v =>
        dsimp only
        cases hdeclare : vars.declare q.name ⟨q.type, some (.held (m.store.keep v).1)⟩ with
        | error fault => exact .inl ⟨fault, _, m.refused, rfl⟩
        | ok vars₁ =>
          obtain ⟨-, rfl⟩ := Table.declare_ok hdeclare
          have hmade₁ : ∀ operand ∈ arguments, (m.store.keep v).2.Made operand :=
            fun operand hoperand => (hmade operand hoperand).keep v
          have hsame : arguments.map (m.store.keep v).2.reveal =
              arguments.map m.store.reveal := List.map_congr_left fun operand hoperand =>
            Store.reveal_keep_of_made (hmade operand hoperand) v
          obtain ⟨fault, store, refused, hfails⟩ |
              ⟨values, vars', store, hvalues, hbinds, hcontents⟩ :=
            @ih arguments _ { m with store := (m.store.keep v).2 } hmade₁
              (holds_lt_of_append hvars)
          · exact .inl ⟨fault, store, refused, hfails⟩
          · rw [hsame] at hvalues
            refine .inr ⟨v :: values, vars', store, converted_cons hv hvalues, hbinds, ?_⟩
            rw [hcontents, contents_append hvars]
            exact List.append_assoc ..

/-- What a call does in its scope. -/
def callBody (p : Program) (below : Level) (f : FunctionDeclaration) :
    Exec (Option Operand) := do
  trace 2 fun m =>
    .ok ("call " ++ f.fullName ++ " depth=" ++ toString m.frames.length)
  let result ← runBody f.fullName (below.executeAll (p.forest.siblings f.body))
  callResult f result

/-- A call has been entered: it has a new scope inside that of its module, with the
parameters bound to the converted arguments and nothing else in it, and all other scopes
are as they were. -/
structure Entered (f : FunctionDeclaration) (arguments : List Value) (m m' : Machine) :
    Prop where
  frames : m'.frames = m.environment.scopes.size :: m.frames
  module : ∃ module, m.modules.lookup f.module = some module ∧
    (m'.environment.scope m.environment.scopes.size).outer = [module]
  parameters : ∃ values, converted f.parameters arguments = .ok values ∧
    m'.contents m.environment.scopes.size = bound f.parameters values
  others : ∀ scope, scope ≠ m.environment.scopes.size →
    m'.environment.scope scope = m.environment.scope scope

/-- A call fails before it is entered, or its body runs from where it was entered. -/
theorem enterCall_cases {m : Machine} (hm : m.Separate) (p : Program) (below : Level)
    (f : FunctionDeclaration) {arguments : List Operand}
    (hmade : ∀ operand ∈ arguments, m.store.Made operand) :
    (∃ fault store refused, enterCall p below f arguments m =
      .error (.fault fault) { m with store, refused }) ∨
    ∃ m', Entered f (arguments.map m.store.reveal) m m' ∧
      enterCall p below f arguments m =
        (callBody p below f).thenTick.andThenTidy popScope m' := by
  unfold enterCall
  rw [bind_apply, moduleScope_apply]
  cases hmodule : m.modules.lookup f.module with
  | none => exact .inl ⟨_, m.store, m.refused, rfl⟩
  | some module =>
    have hrecords : m.Records module := records_of_lookup hmodule
    dsimp only
    rw [bind_apply]
    obtain ⟨fault, store, refused, hfails⟩ |
        ⟨values, vars, store, hvalues, hbinds, hcontents⟩ :=
      bindParameters_cases f.parameters hmade fun _ hholds =>
        absurd hholds Variables.not_holds_empty
    · rw [hfails]
      exact .inl ⟨fault, store, refused, rfl⟩
    · rw [hbinds]
      dsimp only
      rw [within_apply]
      refine .inr ⟨entered { m with store } (some module) f.fullName vars, ?_, rfl⟩
      refine ⟨rfl, ⟨module, hmodule, ?_⟩, ⟨values, hvalues, ?_⟩, fun scope hne => ?_⟩
      · refine Environment.outer_enter.trans ?_
        rw [(hm.recorded module hrecords).2]
      · unfold Machine.contents
        rw [environment_entered, Environment.scope_enter.1]
        exact hcontents
      · rw [environment_entered]
        exact Environment.scope_enter_ne hne

/-- The same of every call. -/
theorem call_cases {m : Machine} (hm : m.Separate) (p : Program) (depth : Nat)
    (callee : Callee) {arguments : List Operand}
    (hmade : ∀ operand ∈ arguments, m.store.Made operand) :
    (∃ fault store refused, (running p depth).call callee arguments m =
      .error (.fault fault) { m with store, refused }) ∨
    ∃ below m', depth = below + 1 ∧
      Entered (p.function callee) (arguments.map m.store.reveal) m m' ∧
      (running p depth).call callee arguments m =
        (callBody p (running p below) (p.function callee)).thenTick.andThenTidy popScope
          m' := by
  cases depth with
  | zero => exact .inl ⟨.tooDeep, m.store, m.refused, rfl⟩
  | succ below =>
    show (∃ fault store refused, callNode p (running p below) callee arguments m = _) ∨
      ∃ below' m', _ ∧ _ ∧ callNode p (running p below) callee arguments m = _
    unfold callNode
    dsimp only
    split
    · exact .inl ⟨_, m.store, m.refused, rfl⟩
    · obtain hfails | ⟨m', hentered, hbody⟩ :=
        enterCall_cases hm p (running p below) (p.function callee) hmade
      · exact .inl hfails
      · exact .inr ⟨below, m', rfl, hentered, hbody⟩

end Level

/-! ## Isolation -/

section

variable {m n : Machine} (hm : m.Separate) (p : Program) (depth : Nat) (callee : Callee)
  {arguments arguments' : List Operand}
  (hmade : ∀ operand ∈ arguments, m.store.Made operand)

include hm hmade

/-- A call does the same whatever is in the frames of its callers. -/
theorem agree_call (hn : m.Recast n)
    (hmade' : ∀ operand ∈ arguments', n.store.Made operand)
    (hvalues : arguments'.map n.store.reveal = arguments.map m.store.reveal) :
    Fork.Agree ⟨m, n⟩ m.frames (fun _ => Option.Rel (Fork.Operands ⟨m, n⟩))
      ((Level.running p depth).call callee arguments m)
      ((Level.running p depth).call callee arguments' n) := by
  -- the arguments themselves may lie in hidden cells, but their values do not
  have hsame : Level.values n arguments' = Level.values m arguments := by
    have hmapped := congrArg (List.map Operand.value) hvalues
    rwa [List.map_map, List.map_map] at hmapped
  have hall : List.Forall₂ (Fork.Operands ⟨m, n⟩) (Level.values m arguments)
      (Level.values m arguments) := by
    refine List.forall₂_same.mpr fun operand hoperand => ?_
    obtain ⟨_, -, rfl⟩ := List.mem_map.mp hoperand
    exact .value _
  rw [← Level.call_values p depth callee hmade, ← Level.call_values p depth callee hmade',
    hsame]
  exact (parallel_running _ p depth).call m.frames callee _ _ hall m n (hn.paired hm)

/-- A call leaves alone the scopes that are not those of modules, and the arrays in
them. -/
theorem call_spares {scope : Nat} (hlt : scope < m.environment.scopes.size)
    (hscope : ¬ m.Records scope) :
    let m' := ((Level.running p depth).call callee arguments).final m
    m'.environment.scope scope = m.environment.scope scope ∧
      m'.contents scope = m.contents scope := by
  obtain ⟨inner, hpaired⟩ :=
    (agree_call hm p depth callee hmade hm.recast_self hmade rfl).final
  have hhidden : ¬ Fork.Sees ⟨m, m⟩ scope := by
    rintro (hrecords | hle)
    · exact hscope hrecords
    · exact Nat.not_lt.mpr hle hlt
  have hsame := hpaired.environments.hidden scope hhidden
  refine ⟨hsame, ?_⟩
  unfold Machine.contents
  rw [hsame]
  refine Variables.contents_congr fun address hholds => ?_
  refine hpaired.stores.hidden address (hm.made scope address hholds) fun b hcells => ?_
  -- no module holds the array, for the scope does
  cases hcells with
  | old hrecords hheld _ _ =>
    rw [hm.owned scope _ address hholds hheld] at hscope
    exact hscope hrecords
  | new j => exact absurd (hm.made scope _ hholds) (by simp)

end

/-- Calls are isolated from their callers.  From every state of every run, and with
whatever arguments, a call leaves the frames of its callers as they are: they stay on the
stack, with the same variables bound to the same values.  If there is anything else in
these frames instead, the call ends the same way, adds the same to the log, leaves the
same answers, and does the same to the variables of modules.  And it fails before it is
entered, or its body runs in a scope with the converted arguments and nothing else. -/
theorem calls_isolated {tokens : List Token} {p : Program}
    (h : Program.ofTokens tokens = .ok p) {m : Machine} (hm : p.Reaches m)
    (ticks depth : Nat) (callee : Callee) (arguments : List Operand)
    (hmade : ∀ operand ∈ arguments, m.store.Made operand) :
    let start : Machine := { m with ticks }
    let call := (Level.running p depth).call callee
    let m' := (call arguments).final start
    (m.frames <:+ m'.frames ∧ ∀ caller ∈ m.frames.dropLast,
      m'.environment.scope caller = m.environment.scope caller ∧
        m'.contents caller = m.contents caller) ∧
    (∀ n arguments', start.Recast n →
      (∀ operand ∈ arguments', n.store.Made operand) →
      arguments'.map n.store.reveal = arguments.map m.store.reveal →
      (call arguments').account n = (call arguments).account start) ∧
    ((∃ fault store refused,
        call arguments start = .error (.fault fault) { start with store, refused }) ∨
      ∃ below m₁, depth = below + 1 ∧
        Level.Entered (p.function callee) (arguments.map m.store.reveal) start m₁ ∧
        call arguments start =
          (Level.callBody p (Level.running p below) (p.function callee)).thenTick.andThenTidy
            popScope m₁) := by
  obtain ⟨c, hlayout, hanchored⟩ := Program.ofTokens_layout h
  obtain ⟨⟨w, hw⟩, -⟩ := hm.admitted hlayout hanchored
  have hseparate := hm.separate
  have hstart : Separate { m with ticks } :=
    ⟨hseparate.made, hseparate.owned, hseparate.recorded⟩
  refine ⟨⟨?_, fun caller hcaller => ?_⟩, fun n arguments' hn hmade' hvalues => ?_,
    Level.call_cases hstart p depth callee hmade⟩
  · obtain ⟨inner, hpaired⟩ :=
      (agree_call hstart p depth callee hmade hstart.recast_self hmade rfl).final
    exact ⟨inner, hpaired.frames.symm⟩
  · obtain hnone | ⟨calls, root, hframes, -, -, houter⟩ := hw.stacked
    · rw [hnone] at hcaller
      cases hcaller
    · rw [hframes, List.dropLast_concat] at hcaller
      have hopen : caller ∈ m.frames := by
        rw [hframes]
        exact List.mem_append_left _ hcaller
      -- a call lies in its module, a module in no scope
      have hcall : ¬ m.Records caller := by
        intro hrecords
        have hnone := (hseparate.recorded caller hrecords).2
        rw [houter caller hcaller] at hnone
        cases hnone
      exact call_spares hstart p depth callee hmade (hm.tidy.made caller hopen) hcall
  · exact (agree_call hstart p depth callee hmade hn hmade' hvalues).account_eq

/-- The tokens of a program with a function that writes into the array that it gets:

    module M; variable - integer[1] x;
    function f(integer[1] a) : integer
      let a[0] := 2;
      return a[0];
    end f.
    begin output f(x); end. -/
def filling : List Token :=
  let word text : Token := { kind := .word, text }
  let number text : Token := { kind := .number, text }
  [.ofKind .moduleWord, word "M", .ofKind .semicolon,
    .ofKind .variableWord, .ofKind .minus, word "integer", .ofKind .leftBracket,
    number "1", .ofKind .rightBracket, word "x", .ofKind .semicolon,
    .ofKind .functionWord, word "f", .ofKind .leftParen, word "integer",
    .ofKind .leftBracket, number "1", .ofKind .rightBracket, word "a",
    .ofKind .rightParen, .ofKind .colon, word "integer",
    .ofKind .letWord, word "a", .ofKind .leftBracket, number "0", .ofKind .rightBracket,
    .ofKind .assign, number "2", .ofKind .semicolon,
    .ofKind .returnWord, word "a", .ofKind .leftBracket, number "0",
    .ofKind .rightBracket, .ofKind .semicolon,
    .ofKind .endWord, word "f", .ofKind .dot,
    .ofKind .beginWord, .ofKind .outputWord, word "f", .ofKind .leftParen, word "x",
    .ofKind .rightParen, .ofKind .semicolon, .ofKind .endWord, .ofKind .dot, .ending]

/-- From inside its first call, before anything is written, the function is called with the
array of that call.  The array stays as it is; and if the first call had no variables, the
same would come out of the second. -/
theorem calls_isolated_filling : ∃ p m m' n result,
    let call := (Level.running p 20).call (.declared 0) [.cell 1]
    Program.ofTokens filling = .ok p ∧ p.Reaches m ∧ m.frames = [1, 0] ∧
      m.Holds 1 1 ∧ call { m with ticks := 20 } = .ok (some result) m' ∧
      m'.contents 1 = m.contents 1 ∧ Recast { m with ticks := 20 } n ∧
      n.contents 1 = [] ∧ call.account n = call.account { m with ticks := 20 } := by
  obtain ⟨p, hp, hholds⟩ := Program.exists_ofTokens (fun p =>
    let m := p.stateAfter [] false 0 10
    m.frames = [1, 0] && (m.modules = [("M", 0)] && (m.store.cells.size = 2 &&
      (((m.environment.scope 1).vars.entries.any fun entry => entry.2.isCell 1) &&
      ((Level.running p 20).call (.declared 0) [.cell 1]).succeeds { m with ticks := 20 }
        Option.isSome))))
    (by decide +kernel : (Program.ofTokens filling).toOption.any _ = true)
  have hreaches : p.Reaches (p.stateAfter [] false 0 10) := ⟨_, _, _, _, rfl⟩
  generalize p.stateAfter [] false 0 10 = m at hholds hreaches
  simp only [Bool.and_eq_true, decide_eq_true_eq, List.any_eq_true] at hholds
  obtain ⟨hframes, hmodules, hcells, ⟨entry, hentry, hbinding⟩, hcall⟩ := hholds
  have hheld : m.Holds 1 1 := ⟨entry.1, entry.2, hentry, Variable.binding_of_isCell hbinding⟩
  have hmade : ∀ operand ∈ [Operand.cell 1], m.store.Made operand := by
    simp [Store.Made, hcells]
  obtain ⟨⟨-, hspares⟩, hsame, -⟩ :=
    calls_isolated hp hreaches 20 20 (.declared 0) _ hmade
  have hstart : Separate { m with ticks := 20 } :=
    ⟨hreaches.separate.made, hreaches.separate.owned, hreaches.separate.recorded⟩
  have hcaller : ¬ Records { m with ticks := 20 } 1 := by
    simp [Records, hmodules]
  have hrecast := hstart.recast_modify hcaller Table.clear
  obtain ⟨given, m', heq, hsome⟩ := exists_of_succeeds hcall
  obtain ⟨result, rfl⟩ := Option.isSome_iff_exists.mp hsome
  unfold Exec.final at hspares
  rw [heq, hframes] at hspares
  refine ⟨p, m, m', _, result, hp, hreaches, hframes, hheld, heq,
    (hspares 1 (by simp)).2, hrecast, ?_, hsame _ _ hrecast hmade rfl⟩
  have hlt : 1 < m.environment.scopes.size := hreaches.tidy.made 1 (by simp [hframes])
  unfold Machine.contents
  rw [Environment.scope_modifyVariables Table.clear hlt]
  rfl

end Pseudocode
