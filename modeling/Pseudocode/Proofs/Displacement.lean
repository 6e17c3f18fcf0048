import Pseudocode.Proofs.Fork.Steps
import Pseudocode.Proofs.Simulation.Interpreter

/-!
# The same code on a new machine and on a used one

A machine that has been used has scopes, cells, modules on record and a log from before.
Code that starts on it while no scope is open does what it does on a new machine, only
that its scopes and cells come behind those from before, and its events behind the log:
it is displaced.  `Machine.Displaced` says this of two states, and `displacement` is the
simulation.

The two states are a fork (`Machine.fork`): nothing from before can be seen on the new
machine, where there is nothing, and so nothing of it is reached on the used one.  A scope
is displaced by the number of scopes from before (`Machine.shift`), a cell by the number of
cells.  What was written is compared event by event (`Event.Displaced`).  Only where a
message goes may differ: the trace of a used machine may have been closed, and the console
shows it then.

What the modules on record are matters only for calls.  A function can be called only in
the module that it belongs to, and that module is the last one of its name to have been
put on record (`known`).  So an older module of the same name, left on record by an earlier
run, is never entered.

> `Displaced.record`, `scoped_displacement`: a module that starts is known, and its calls
> find it.
-/

namespace Pseudocode

open Exec Machine

/-! ## States -/

/-- The number that a scope of a new machine has on a used one. -/
def Machine.shift (base : Machine) (scope : Nat) : Nat :=
  base.environment.scopes.size + scope

/-- The two runs: one on a new machine, one on a used one. -/
def Machine.fork (base : Machine) : Fork := ⟨{}, base⟩

/-- A scope on a new machine and the corresponding one on a used one. -/
structure Scope.Displaced (base : Machine) (s s' : Scope) : Prop where
  outer : s'.outer = s.outer.map base.shift
  vars : base.fork.Tables s.vars s'.vars
  bound : s.vars.Bound

/-- Events that correspond.  The trace of a used machine may have been closed. -/
inductive Event.Displaced (base : Machine) : Event → Event → Prop where
  | written {a b} (operands : base.fork.Operands a b) (text) :
      Displaced base (.written a text) (.written b text)
  | prompted (text) : Displaced base (.prompted text) (.prompted text)
  | told (traced traced' : Bool) (message) :
      Displaced base (if traced then .traced message else .noticed message)
        (if traced' then .traced message else .noticed message)

/-- A state of a new machine and the corresponding one of a machine that had been used
before; the module of the code that runs, if it is known, is on record in both. -/
structure Machine.Displaced (base : Machine) (known : Option String) (m n : Machine) :
    Prop where
  rest : n = { m with
    environment := n.environment, frames := n.frames, modules := n.modules
    store := n.store, log := n.log, tracing := n.tracing, pending := n.pending,
    refused := n.refused }
  frames : n.frames = m.frames.map base.shift
  modules : ∀ name ∈ known, ∃ s, m.modules.lookup name = some s ∧
    n.modules.lookup name = some (base.shift s)
  size : n.environment.scopes.size = base.shift m.environment.scopes.size
  scopes : ∀ s, Scope.Displaced base (m.environment.scope s)
    (n.environment.scope (base.shift s))
  stores : base.fork.Stores m.store n.store
  before : ∀ a < base.store.cells.size, n.store.slots a = base.store.slots a
  log : ∃ events, n.log.toList = base.log.toList ++ events ∧
    List.Forall₂ (Event.Displaced base) m.log.toList events

/-- A machine as it was made, with the answers and ticks that are left. -/
def Machine.renewed (m : Machine) : Machine :=
  { answers := m.answers
    interactive := m.interactive
    verbosity := m.verbosity
    ticks := m.ticks }

namespace Machine

variable {base m n : Machine} {known : Option String}

/-- Different scopes are displaced to different ones. -/
theorem shift_inj {s t : Nat} (h : base.shift s = base.shift t) : s = t :=
  Nat.add_left_cancel h

/-- A cell of a new machine comes behind those from before. -/
theorem fork_cells {a b : Nat} (h : base.fork.Cells a b) : b = base.store.cells.size + a := by
  cases h with
  | old record => exact absurd record fun ⟨_, hmem⟩ => nomatch hmem
  | new n =>
    show _ = _ + (0 + n)
    rw [Nat.zero_add]
    rfl

namespace Displaced

/-- No scope is open on the used machine, so all of it counts as having been before. -/
theorem start (hnone : base.frames = []) : Displaced base none base.renewed base := by
  refine ⟨rfl, hnone, nofun, rfl, fun s => ?_, ⟨⟨0, rfl, rfl⟩, fun a b hcells => ?_, nofun⟩,
    fun _ _ => rfl, [], (List.append_nil _).symm, .nil⟩
  · have hle : base.environment.scopes.size ≤ base.shift s := Nat.le_add_right ..
    rw [Environment.scope_of_le hle]
    exact ⟨rfl, Fork.tables_empty, Variables.holding_nil⟩
  · -- neither cell has been made
    rw [fork_cells hcells]
    simp [Store.slots, renewed]

/-- The module that runs need not be known. -/
theorem forget (h : Displaced base known m n) : Displaced base none m n :=
  ⟨h.rest, h.frames, nofun, h.size, h.scopes, h.stores, h.before, h.log⟩

theorem ticks_eq (h : Displaced base known m n) : n.ticks = m.ticks := by rw [h.rest]

theorem renewed_eq (h : Displaced base known m n) : n.renewed = m.renewed := by
  rw [h.rest]
  rfl

theorem reveal_eq (h : Displaced base known m n) {a b : Operand}
    (hoperands : base.fork.Operands a b) : n.store.reveal b = m.store.reveal a :=
  h.stores.reveal hoperands

theorem textOf_eq (h : Displaced base known m n) {a b : Operand}
    (hoperands : base.fork.Operands a b) : n.textOf b = m.textOf a := by
  unfold textOf
  rw [h.reveal_eq hoperands]

theorem tick (h : Displaced base known m n) (ticks : Nat) :
    Displaced base known { m with ticks } { n with ticks } :=
  ⟨by rw [h.rest], h.frames, h.modules, h.size, h.scopes, h.stores, h.before, h.log⟩

theorem pause (h : Displaced base known m n) (pending pending' : Option Access) :
    Displaced base known { m with pending } { n with pending := pending' } :=
  ⟨by rw [h.rest], h.frames, h.modules, h.size, h.scopes, h.stores, h.before, h.log⟩

theorem refuse (h : Displaced base known m n) (c : Conversion) :
    Displaced base known { m with refused := some c } { n with refused := some c } :=
  ⟨by rw [h.rest], h.frames, h.modules, h.size, h.scopes, h.stores, h.before, h.log⟩

theorem answer (h : Displaced base known m n) (answers : List String) :
    Displaced base known { m with answers } { n with answers } :=
  ⟨by rw [h.rest], h.frames, h.modules, h.size, h.scopes, h.stores, h.before, h.log⟩

/-- Events that correspond, one on each machine. -/
theorem emit (h : Displaced base known m n) {event event' : Event}
    (hevents : event.Displaced base event') :
    Displaced base known { m with log := m.log.push event }
      { n with log := n.log.push event' } := by
  obtain ⟨events, hlog, hall⟩ := h.log
  refine ⟨by rw [h.rest], h.frames, h.modules, h.size, h.scopes, h.stores, h.before,
    events ++ [event'], ?_, ?_⟩
  · simp [hlog]
  · simpa using List.rel_append hall (.cons hevents .nil)

/-- A new cell comes last on both machines. -/
theorem keep (h : Displaced base known m n) (v : Value) :
    Displaced base known { m with store := (m.store.keep v).2 }
      { n with store := (n.store.keep v).2 } := by
  obtain ⟨k, -, hsize⟩ := h.stores.size
  refine ⟨by rw [h.rest], h.frames, h.modules, h.size, h.scopes, (h.stores.keep v).1,
    fun a ha => ?_, h.log⟩
  have hmade : n.store.Made (.cell a) := Nat.lt_of_lt_of_le ha (hsize ▸ Nat.le_add_right _ k)
  exact (Value.array.inj (Store.reveal_keep_of_made hmade v)).trans (h.before a ha)

/-- Cells that correspond are written with the same slots. -/
theorem write (h : Displaced base known m n) {a b : Nat} (hcells : base.fork.Cells a b)
    (slots : List (Option Value)) :
    Displaced base known { m with store := m.store.write a slots }
      { n with store := n.store.write b slots } := by
  refine ⟨by rw [h.rest], h.frames, h.modules, h.size, h.scopes, h.stores.write hcells slots,
    fun i hi => ?_, h.log⟩
  -- what is written lies behind the cells from before
  have hbehind := fork_cells hcells
  show (n.store.write b slots).slots i = _
  rw [Store.slots_write, if_neg (by omega)]
  exact h.before i hi

/-- Tables that correspond are changed alike. -/
theorem modify (h : Displaced base known m n) {id : Nat} {change change' : Variables → Variables}
    (hchange : ∀ t t', base.fork.Tables t t' → t.Bound →
      base.fork.Tables (change t) (change' t') ∧ (change t).Bound) :
    Displaced base known { m with environment := m.environment.modifyVariables id change }
      { n with
        environment := n.environment.modifyVariables (base.shift id) change' } := by
  refine ⟨by rw [h.rest], h.frames, h.modules, ?_, fun s => ?_, h.stores, h.before, h.log⟩
  · rw [Environment.size_modifyVariables, Environment.size_modifyVariables]
    exact h.size
  · have hlt : base.shift id < n.environment.scopes.size ↔
        id < m.environment.scopes.size := by
      rw [h.size]
      exact Nat.add_lt_add_iff_left
    have heq : base.shift s = base.shift id ↔ s = id := ⟨shift_inj, congrArg _⟩
    obtain ⟨houter, hvars, hbound⟩ := h.scopes id
    rw [Environment.scope_modify, Environment.scope_modify]
    simp only [heq, hlt]
    split
    · obtain ⟨htables, hstill⟩ := hchange _ _ hvars hbound
      exact ⟨houter, htables, hstill⟩
    · exact h.scopes s

/-- A new scope comes last on both machines. -/
theorem enter (h : Displaced base known m n) (parent : Option Nat) (name : String)
    {vars vars' : Variables} (hvars : base.fork.Tables vars vars') (hbound : vars.Bound) :
    Displaced base known (entered m parent name vars)
      (entered n (parent.map base.shift) name vars') := by
  refine ⟨?_, ?_, h.modules, ?_, fun s => ?_, h.stores, h.before, h.log⟩
  · rw [h.rest]
    rfl
  · show n.environment.scopes.size :: n.frames = _
    rw [h.size, h.frames]
    rfl
  · rw [environment_entered, environment_entered, Environment.size_enter,
      Environment.size_enter, h.size]
    rfl
  · rw [environment_entered, environment_entered]
    have heq : base.shift s = n.environment.scopes.size ↔ s = m.environment.scopes.size := by
      rw [h.size]
      exact ⟨shift_inj, congrArg _⟩
    by_cases hs : s = m.environment.scopes.size
    · have hs' := heq.mpr hs
      subst hs
      rw [hs']
      refine ⟨?_, ?_, ?_⟩
      · rw [Environment.outer_entering, Environment.outer_entering]
        cases parent with
        | none => rfl
        | some id =>
          show base.shift id :: (n.environment.scope (base.shift id)).outer = _
          rw [(h.scopes id).outer]
          rfl
      · rw [Environment.scope_enter.1, Environment.scope_enter.1]
        exact hvars
      · rw [Environment.scope_enter.1]
        exact hbound
    · rw [Environment.scope_enter_ne hs, Environment.scope_enter_ne (mt heq.mp hs)]
      exact h.scopes s

theorem pop (h : Displaced base known m n) : Displaced base known m.popScope n.popScope := by
  cases hframes : m.frames with
  | nil =>
    have hframes' : n.frames = [] := by rw [h.frames, hframes]; rfl
    unfold popScope
    rw [hframes, hframes']
    exact h
  | cons scope rest =>
    have hframes' : n.frames = base.shift scope :: rest.map base.shift := by
      rw [h.frames, hframes]
      rfl
    have hcleared : Displaced base known
        { m with environment := m.environment.clear scope }
        { n with environment := n.environment.clear (base.shift scope) } :=
      h.modify fun _ _ htables _ => ⟨htables.clear, Variables.holding_nil⟩
    rw [popScope_apply hframes, popScope_apply hframes']
    exact ⟨by rw [h.rest], rfl, h.modules, hcleared.size, hcleared.scopes, h.stores, h.before,
      h.log⟩

/-- A module that starts is known from then on. -/
theorem record (h : Displaced base known m n) (name : String) (scope : Nat) :
    Displaced base (some name) (m.recordModule name scope)
      (n.recordModule name (base.shift scope)) := by
  refine ⟨?_, h.frames, ?_, h.size, h.scopes, h.stores, h.before, h.log⟩
  · rw [h.rest]
    rfl
  · rintro _ ⟨⟩
    exact ⟨scope, lookup_recordModule .., lookup_recordModule ..⟩

/-- A name is found in the corresponding scope. -/
theorem owner? (h : Displaced base known m n) (scope : Nat) (name : String) :
    n.environment.owner? (base.shift scope) name =
      (m.environment.owner? scope name).map base.shift := by
  unfold Environment.owner? Environment.path
  rw [(h.scopes scope).outer, ← List.map_cons, List.find?_map]
  congr 2
  funext s
  exact (h.scopes s).vars.has name

/-- What is found corresponds, or nothing is found in either. -/
theorem find? (h : Displaced base known m n) (scope : Nat) (name : String) :
    Option.Rel base.fork.Vars (m.environment.find? scope name)
      (n.environment.find? (base.shift scope) name) := by
  unfold Environment.find?
  rw [h.owner? scope name]
  cases m.environment.owner? scope name with
  | none => exact .none
  | some owner => exact (h.scopes owner).vars.find? name

end Displaced

end Machine

/-! ## Computations -/

/-- Two computations ended the same way; if both have results, these are related. -/
inductive Exec.Alongside {α : Type} (base : Machine) (known : Option String)
    (related : α → α → Prop) :
    EStateM.Result Halt Machine α → EStateM.Result Halt Machine α → Prop where
  | ok {a a' m n} (results : related a a') (displaced : Machine.Displaced base known m n) :
      Alongside base known related (.ok a m) (.ok a' n)
  | fault (fault) {m n} (displaced : Machine.Displaced base known m n) :
      Alongside base known related (.error (.fault fault) m) (.error (.fault fault) n)
  | returned {r r' m n} (results : Option.Rel base.fork.Operands r r')
      (displaced : Machine.Displaced base known m n) :
      Alongside base known related (.error (.returned r) m) (.error (.returned r') n)
  | suspended {m n} (displaced : Machine.Displaced base known m n) :
      Alongside base known related (.error .suspended m) (.error .suspended n)

/-- Code that does on a used machine what it does on a new one. -/
def displacement (base : Machine) (known : Option String) : Simulation where
  Operands := base.fork.Operands
  Scopes s s' := s' = base.shift s
  Tables t t' := base.fork.Tables t t' ∧ t.Bound
  Runs related x x' := ∀ m n, Machine.Displaced base known m n →
    Alongside base known related (x m) (x' n)

namespace Exec

variable {base m n : Machine} {known : Option String} {α β : Type} {related : α → α → Prop}
  {related' : β → β → Prop}

/-- The module that runs need no longer be known when it has ended. -/
theorem Alongside.forget {r r' : EStateM.Result Halt Machine α}
    (h : Alongside base known related r r') : Alongside base none related r r' := by
  cases h with
  | ok results displaced => exact .ok results displaced.forget
  | fault fault displaced => exact .fault fault displaced.forget
  | returned results displaced => exact .returned results displaced.forget
  | suspended displaced => exact .suspended displaced.forget

/-- What follows on results that correspond. -/
theorem Alongside.bind {x x' : Exec α} {f f' : α → Exec β}
    (hx : Alongside base known related (x m) (x' n))
    (hf : ∀ a a' m' n', related a a' → Machine.Displaced base known m' n' →
      Alongside base known related' (f a m') (f' a' n')) :
    Alongside base known related' ((x >>= f) m) ((x' >>= f') n) := by
  rw [bind_apply, bind_apply]
  generalize x m = r at hx
  generalize x' n = r' at hx
  cases hx with
  | ok results displaced => exact hf _ _ _ _ results displaced
  | fault fault displaced => exact .fault fault displaced
  | returned results displaced => exact .returned results displaced
  | suspended displaced => exact .suspended displaced

theorem alongside_tick (h : Machine.Displaced base known m n) (next next' : Option Access) :
    Alongside base known Eq (tick next m) (tick next' n) := by
  cases hticks : m.ticks with
  | zero =>
    rw [tick_of_zero hticks, tick_of_zero (h.ticks_eq.trans hticks)]
    exact .suspended (h.pause next next')
  | succ ticks =>
    rw [tick_of_succ hticks, tick_of_succ (h.ticks_eq.trans hticks)]
    exact .ok rfl (h.tick ticks)

theorem alongside_lift (h : Machine.Displaced base known m n) (x : Except Fault α) :
    Alongside base known Eq (lift x m) (lift x n) := by
  cases x with
  | ok a => exact .ok rfl h
  | error fault => exact .fault fault h

/-- By induction on the ticks, which both machines have in the same number. -/
theorem alongside_loop {guard guard' : Exec Bool} {body body' : Exec Unit}
    (hguard : (displacement base known).Runs Eq guard guard')
    (hbody : (displacement base known).Runs Eq body body') :
    (displacement base known).Runs Eq (loop guard body) (loop guard' body') := by
  -- the limit is on the rounds, and is the same in both runs
  have hrounds : ∀ limit m n, Machine.Displaced base known m n → Alongside base known Eq
      (repeatWhile guard body limit m) (repeatWhile guard' body' limit n) := by
    intro limit
    induction limit with
    | zero => exact fun _ _ h => .suspended h
    | succ limit ih =>
      intro m n h
      refine (hguard m n h).bind fun holds _ m' n' heq h' => ?_
      subst heq
      cases holds with
      | true => exact (hbody m' n' h').bind fun _ _ m'' n'' _ h'' => ih m'' n'' h''
      | false => exact .ok rfl h'
  intro m n h
  unfold loop
  rw [h.ticks_eq]
  exact hrounds _ m n h

/-- A message that is the same on both machines, wherever it goes. -/
theorem alongside_trace (h : Machine.Displaced base known m n) (level : Nat)
    {message message' : Machine → Except Fault String} (hsame : message' n = message m) :
    Alongside base known Eq (trace level message m) (trace level message' n) := by
  have hverbosity : n.verbosity = m.verbosity := by rw [h.rest]
  unfold trace
  rw [get_bind_apply, get_bind_apply, hverbosity, hsame]
  split
  · exact (alongside_lift h _).bind fun text _ m' n' heq h' =>
      heq ▸ .ok rfl (h'.emit (.told m.tracing n.tracing text))
  · exact .ok rfl h

theorem alongside_nextAnswer (h : Machine.Displaced base known m n) (name : String)
    (type : DeclaredType) :
    Alongside base known Eq (nextAnswer name type m) (nextAnswer name type n) := by
  have hinteractive : n.interactive = m.interactive := by rw [h.rest]
  have hanswers : n.answers = m.answers := by rw [h.rest]
  rw [nextAnswer_eq, get_bind_apply, get_bind_apply, hinteractive, hanswers]
  -- what is read is the same, whether or not there was a prompt before
  have hread : ∀ {m' n'} fault, Machine.Displaced base known m' n' →
      Alongside base known Eq (takeAnswer fault m.answers m')
        (takeAnswer fault m.answers n') := by
    intro m' n' fault h'
    cases m.answers with
    | nil => exact .fault fault h'
    | cons answer answers => exact .ok rfl (h'.answer answers)
  split
  · have hprompt : Alongside base known Eq
        (emit (.prompted (name ++ " (" ++ type.text ++ "): ")) m)
        (emit (.prompted (name ++ " (" ++ type.text ++ "): ")) n) :=
      .ok rfl (h.emit (.prompted _))
    exact hprompt.bind fun _ _ m' n' _ h' => hread _ h'
  · exact hread _ h

theorem alongside_declareHere (h : Machine.Displaced base known m n) (type : DeclaredType)
    (name : String) {a b : Operand} (hoperands : base.fork.Operands a b) :
    Alongside base known Eq (declareHere type name a m) (declareHere type name b n) := by
  cases hframes : m.frames with
  | nil =>
    have hframes' : n.frames = [] := by rw [h.frames, hframes]; rfl
    rw [declareHere_of_nil hframes, declareHere_of_nil hframes']
    exact .fault _ h
  | cons scope rest =>
    have hframes' : n.frames = base.shift scope :: rest.map base.shift := by
      rw [h.frames, hframes]
      rfl
    rw [declareHere_apply hframes, declareHere_apply hframes']
    exact .ok rfl (h.modify fun _ _ htables hbound =>
      ⟨htables.put type hoperands, hbound.put trivial⟩)

theorem alongside_rebind (h : Machine.Displaced base known m n) (scope : Nat) (name : String)
    {a b : Operand} (hoperands : base.fork.Operands a b) :
    Alongside base known Eq (rebind scope name a m) (rebind (base.shift scope) name b n) := by
  rw [rebind_apply, rebind_apply, h.owner? scope name]
  cases m.environment.owner? scope name with
  | none => exact .fault _ h
  | some owner =>
    exact .ok rfl (h.modify fun _ _ htables hbound =>
      ⟨htables.rebind hoperands, hbound.rebind trivial⟩)

/-- A variable that is found in a scope of a new machine holds an operand. -/
theorem alongside_variableIn (h : Machine.Displaced base known m n) (scope : Nat)
    (target : Occurrence) :
    Alongside base known (displacement base known).Vars (variableIn scope target m)
      (variableIn (base.shift scope) target n) := by
  refine (alongside_tick h _ _).bind fun _ _ m' n' _ h' => ?_
  rw [get_bind_apply, get_bind_apply]
  have hfind := h'.find? scope target.name
  have hbound : ∀ v, m'.environment.find? scope target.name = some v →
      ∃ operand, v.binding = some (.held operand) := by
    intro v hv
    unfold Environment.find? at hv
    obtain ⟨owner, -, hfound⟩ := Option.bind_eq_some_iff.mp hv
    obtain ⟨operand, hbinding, -⟩ := (h'.scopes owner).bound.find? hfound
    exact ⟨operand, hbinding⟩
  unfold Environment.lookup
  generalize m'.environment.find? scope target.name = found at hfind hbound
  generalize n'.environment.find? (base.shift scope) target.name = found' at hfind
  cases hfind with
  | none => exact .fault _ h'
  | @some v v' hvars =>
    obtain ⟨operand, hbinding⟩ := hbound v rfl
    obtain ⟨type, binding⟩ := v
    obtain ⟨type', binding'⟩ := v'
    obtain ⟨htype, hbindings⟩ := hvars
    cases htype
    cases hbinding
    cases hbindings with
    | held operands => exact .ok (.held type operands) h'

/-- A slot is refused on both machines or set on both. -/
theorem alongside_setSlot (h : Machine.Displaced base known m n) {i j : Nat}
    (hcells : base.fork.Cells i j) (index : Int) (content : Value) :
    Alongside base known Eq (setSlot i index content m) (setSlot j index content n) := by
  rw [setSlot_apply, setSlot_apply, h.stores.slots i j hcells]
  cases Value.setSlotAt (m.store.slots i) index (some content) with
  | ok slots => exact .ok rfl (h.write hcells slots)
  | error fault => exact .fault fault h

/-- What is written has the same text. -/
theorem alongside_write (h : Machine.Displaced base known m n) {a b : Operand}
    (hoperands : base.fork.Operands a b) :
    Alongside base known Eq (Level.write a m) (Level.write b n) := by
  have htext := h.textOf_eq hoperands
  have hwrite : Alongside base known Eq
      ((lift (m.textOf a) >>= fun text => emit (.written a text)) m)
      ((lift (n.textOf b) >>= fun text => emit (.written b text)) n) := by
    rw [htext]
    exact (alongside_lift h _).bind fun text _ m' n' heq h' =>
      heq ▸ .ok rfl (h'.emit (.written hoperands text))
  exact hwrite

theorem Alongside.thenTick {x x' : Exec α} (h : Alongside base known related (x m) (x' n)) :
    Alongside base known related (x.thenTick m) (x'.thenTick n) := by
  unfold Exec.thenTick
  rw [attempt_bind_apply, attempt_bind_apply]
  generalize x m = r at h
  generalize x' n = r' at h
  cases h with
  | ok results displaced =>
    exact (alongside_tick displaced none none).bind fun _ _ _ _ _ h' => .ok results h'
  | fault fault displaced =>
    exact (alongside_tick displaced none none).bind fun _ _ _ _ _ h' => .fault fault h'
  | returned results displaced =>
    exact (alongside_tick displaced none none).bind fun _ _ _ _ _ h' => .returned results h'
  | suspended displaced => exact .suspended displaced

theorem Alongside.andThenTidy {x x' : Exec α} {tidy : Machine → Machine}
    (h : Alongside base known related (x m) (x' n))
    (htidy : ∀ m n, Machine.Displaced base known m n →
      Machine.Displaced base known (tidy m) (tidy n)) :
    Alongside base known related (x.andThenTidy tidy m) (x'.andThenTidy tidy n) := by
  unfold Exec.andThenTidy
  generalize x m = r at h
  generalize x' n = r' at h
  cases h with
  | ok results displaced => exact .ok results (htidy _ _ displaced)
  | fault fault displaced => exact .fault fault (htidy _ _ displaced)
  | returned results displaced => exact .returned results (htidy _ _ displaced)
  | suspended displaced => exact .suspended displaced

/-- A computation in a new scope, which is behind those from before. -/
theorem alongside_within {before : Option String} (h : Machine.Displaced base before m n)
    (parent : Option Nat) (name : String) {vars vars' : Variables}
    (hvars : base.fork.Tables vars vars') (hbound : vars.Bound) {x x' : Nat → Exec α}
    (hx : let scope := m.environment.scopes.size
      Machine.Displaced base before (entered m parent name vars)
        (entered n (parent.map base.shift) name vars') →
      Alongside base known related (x scope (entered m parent name vars))
        (x' (base.shift scope) (entered n (parent.map base.shift) name vars'))) :
    Alongside base known related (within parent name vars x m)
      (within (parent.map base.shift) name vars' x' n) := by
  rw [within_apply, within_apply, h.size]
  exact (hx (h.enter parent name hvars hbound)).thenTick.andThenTidy fun _ _ => Displaced.pop

end Exec

/-! ## The simulation -/

/-- The simulation is lawful, since all its steps are those above. -/
theorem lawful_displacement (base : Machine) (known : Option String) :
    (displacement base known).Lawful where
  value _ := .value _
  contents _ _ := .value _
  alike h := by
    cases h with
    | value v => exact .inl ⟨v, rfl, rfl⟩
    | cell _ => exact .inr ⟨_, _, rfl, rfl⟩
  gives hrelated _ _ h := .ok hrelated h
  chains hx hf m n h := (hx m n h).bind fun a a' m' n' hrelated h' => hf a a' hrelated m' n' h'
  loops := alongside_loop
  fails _ _ _ h := .fault _ h
  returns hresults _ _ h := .returned hresults h
  ticks _ _ h := alongside_tick h none none
  refusals c _ _ h := .ok rfl (h.refuse c)
  reveals hoperands _ _ h := .ok ⟨(h.reveal_eq hoperands).symm, .value _⟩ h
  keeps {v} _ _ _ h := .ok (h.stores.keep v).2 (h.keep v)
  setsSlot index s hoperands _ _ h := by
    cases hoperands with
    | cell hcells => exact alongside_setSlot h hcells index (.scalar s)
  active m n h := by
    unfold activeScope
    rw [get_bind_apply, get_bind_apply, h.frames]
    cases m.frames with
    | nil => exact .fault _ h
    | cons scope rest => exact .ok rfl h
  looksUp target hscope m n h := hscope ▸ alongside_variableIn h _ target
  declares type name hoperands _ _ h := alongside_declareHere h type name hoperands
  rebinds name hscope hoperands _ _ h := hscope ▸ alongside_rebind h _ name hoperands
  empty := ⟨Fork.tables_empty, Variables.holding_nil⟩
  binds type name htables hoperands m n h := by
    unfold Table.declare
    rw [htables.1.has]
    split
    · rw [htables.1.kind]
      exact .fault _ h
    · exact .ok ⟨htables.1.append ⟨rfl, .held hoperands⟩, htables.2.append trivial⟩ h
  tracesLine text _ _ _ h := alongside_trace h _ rfl
  tracesDepth before _ m n h := by
    refine alongside_trace h _ ?_
    rw [h.frames, List.length_map]
  tracesText before _ hoperands _ _ h := by
    refine alongside_trace h _ ?_
    rw [h.textOf_eq hoperands]
  reads name type _ _ h := alongside_nextAnswer h name type
  writes hoperands _ _ h := alongside_write h hoperands

/-- Calls find the module that runs. -/
theorem scoped_displacement (base : Machine) {p : Program} {number : Nat}
    {d : ModuleDeclaration} (hd : p.modules[number]? = some d) :
    (displacement base (some d.name)).Scoped p number where
  finds hd' m n h := by
    cases hd.symm.trans hd'
    obtain ⟨s, hlookup, hlookup'⟩ := h.modules d.name rfl
    rw [moduleScope_apply, moduleScope_apply, hlookup, hlookup']
    exact .ok rfl h
  refuses name fault _ _ h := .fault _ h
  catches {body body'} function hbody m n h := by
    unfold Level.runBody
    rw [attempt_bind_apply, attempt_bind_apply]
    have hend := hbody m n h
    generalize body m = r at hend
    generalize body' n = r' at hend
    cases hend with
    | ok _ displaced => exact .ok .none displaced
    | fault fault displaced => exact .fault _ displaced
    | returned results displaced => exact .ok results displaced
    | suspended displaced => exact .suspended displaced
  enters name hscope htables hx m n h := by
    cases hscope
    exact alongside_within h (some _) name htables.1 htables.2 fun hentered =>
      hx _ _ rfl _ _ hentered

end Pseudocode
