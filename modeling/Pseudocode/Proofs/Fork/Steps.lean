import Pseudocode.Proofs.Fork
import Pseudocode.Proofs.Steady

/-!
# Computations side by side

`Fork.Parallel` says of two computations that from states that have come out of a fork
they do the same: both give results that correspond, or fail with the same fault, or
give back operands that correspond, or are suspended; and they leave the stack of frames
as it was, and states that have come out of the fork.  The computations that the
interpreter is made of have this property, provided that they look only into scopes that
the runs see.

It is said once from fixed states (`Fork.Agree`), where more may be known of the results and
of what they are worth in the states afterwards, and once for all states.  The former is
needed where a value is converted and then bound: that no variable holds it is known in
between only (`agree_convert`, `agree_declareHere`).

First come the changes of single parts of the state, each made on both sides, then the rules
for putting computations together, then the small computations one by one.
-/

namespace Pseudocode

open Exec Machine

namespace Fork

/-- Two states that have come out of a fork, with the given scopes open.  They differ
only in what is hidden, in the numbers of cells and in what was logged before. -/
structure Paired (k : Fork) (frames : List Nat) (m n : Machine) : Prop where
  rest : n = { m with
    environment := n.environment, store := n.store, log := n.log, pending := n.pending,
    refused := n.refused }
  frames : m.frames = frames
  recorded : ∀ scope, m.Records scope → k.Sees scope
  environments : k.Environments m.environment n.environment
  stores : k.Stores m.store n.store
  separate : m.Separate
  log : ∃ events events', m.log.toList = k.left.log.toList ++ events ∧
    n.log.toList = k.right.log.toList ++ events' ∧ List.Forall₂ k.Events events events'

/-- Two computations ended the same way; if both have results, these are related. -/
inductive Agree {α : Type} (k : Fork) (frames : List Nat)
    (related : Machine → α → α → Prop) :
    EStateM.Result Halt Machine α → EStateM.Result Halt Machine α → Prop where
  | ok {a a' m n} (results : related m a a') (paired : k.Paired frames m n) :
      Agree k frames related (.ok a m) (.ok a' n)
  | fault (fault) {m n} (paired : k.Paired frames m n) :
      Agree k frames related (.error (.fault fault) m) (.error (.fault fault) n)
  | returned {result result' m n} (results : Option.Rel k.Operands result result')
      (paired : k.Paired frames m n) :
      Agree k frames related (.error (.returned result) m) (.error (.returned result') n)
  | suspended {inner m n} (paired : k.Paired (inner ++ frames) m n) :
      Agree k frames related (.error .suspended m) (.error .suspended n)

/-- Two computations do the same from all states that have come out of a fork. -/
def Parallel {α : Type} (k : Fork) (frames : List Nat) (related : α → α → Prop)
    (x x' : Exec α) : Prop :=
  ∀ m n, k.Paired frames m n → k.Agree frames (fun _ => related) (x m) (x' n)

/-- Whether the runs see the innermost open scope, if there is one. -/
def Active (k : Fork) (frames : List Nat) : Prop :=
  ∀ scope, frames.head? = some scope → k.Sees scope

variable {α β : Type} {k : Fork} {frames : List Nat} {m n : Machine}

namespace Paired

/-- Both states have as many ticks. -/
theorem ticks_eq (h : k.Paired frames m n) : n.ticks = m.ticks := by rw [h.rest]

/-- Both states have the same frames. -/
theorem frames_eq (h : k.Paired frames m n) : n.frames = frames := by
  rw [h.rest]
  exact h.frames

/-- Operands that correspond show the same value. -/
theorem reveal_eq (h : k.Paired frames m n) {a b : Operand} (hoperands : k.Operands a b) :
    n.store.reveal b = m.store.reveal a := h.stores.reveal hoperands

/-- Operands that correspond have the same text. -/
theorem textOf_eq (h : k.Paired frames m n) {a b : Operand}
    (hoperands : k.Operands a b) : n.textOf b = m.textOf a := by
  unfold textOf
  rw [h.reveal_eq hoperands]

/-- States that differ in nothing that a fork speaks of. -/
theorem settle (h : k.Paired frames m n) {m' n' : Machine}
    (hrest : n' = { m' with
      environment := n'.environment, store := n'.store, log := n'.log,
      pending := n'.pending, refused := n'.refused })
    (hm : m' = { m with
      answers := m'.answers, tracing := m'.tracing, ticks := m'.ticks,
      pending := m'.pending, refused := m'.refused })
    (hn : n' = { n with
      answers := n'.answers, tracing := n'.tracing, ticks := n'.ticks,
      pending := n'.pending, refused := n'.refused }) : k.Paired frames m' n' := by
  rw [hm, hn] at hrest ⊢
  exact ⟨hrest, h.frames, h.recorded, h.environments, h.stores,
    ⟨h.separate.made, h.separate.owned, h.separate.recorded⟩, h.log⟩

/-- The same ticks on both sides. -/
theorem tick (h : k.Paired frames m n) (ticks : Nat) :
    k.Paired frames { m with ticks } { n with ticks } :=
  h.settle (by rw [h.rest]) rfl rfl

/-- Both are about to look up the same. -/
theorem pause (h : k.Paired frames m n) (pending : Option Access) :
    k.Paired frames { m with pending } { n with pending } :=
  h.settle (by rw [h.rest]) rfl rfl

/-- The same conversion has failed on both sides. -/
theorem refuse (h : k.Paired frames m n) (c : Conversion) :
    k.Paired frames { m with refused := some c } { n with refused := some c } :=
  h.settle (by rw [h.rest]) rfl rfl

/-- The same answers on both sides. -/
theorem answer (h : k.Paired frames m n) (answers : List String) :
    k.Paired frames { m with answers } { n with answers } :=
  h.settle (by rw [h.rest]) rfl rfl

/-- The trace is closed on both sides. -/
theorem closeTrace (h : k.Paired frames m n) :
    k.Paired frames m.closeTrace n.closeTrace :=
  h.settle (by rw [h.rest]; rfl) rfl rfl

/-- Events that correspond on both sides. -/
theorem emit (h : k.Paired frames m n) {event event' : Event}
    (hevents : k.Events event event') :
    k.Paired frames { m with log := m.log.push event } { n with log := n.log.push event' } := by
  obtain ⟨events, events', hlog, hlog', hall⟩ := h.log
  refine ⟨by rw [h.rest], h.frames, h.recorded, h.environments, h.stores,
    ⟨h.separate.made, h.separate.owned, h.separate.recorded⟩,
    events ++ [event], events' ++ [event'], ?_, ?_, ?_⟩
  · simp [hlog]
  · simp [hlog']
  · exact List.rel_append hall (.cons hevents .nil)

/-- The same value is kept on both sides. -/
theorem keep (h : k.Paired frames m n) (v : Value) :
    k.Paired frames { m with store := (m.store.keep v).2 }
      { n with store := (n.store.keep v).2 } :=
  ⟨by rw [h.rest], h.frames, h.recorded, h.environments, (h.stores.keep v).1,
    h.separate.keep v, h.log⟩

/-- The same slots are written into cells that correspond. -/
theorem write (h : k.Paired frames m n) {a b : Nat} (hcells : k.Cells a b)
    (slots : List (Option Value)) :
    k.Paired frames { m with store := m.store.write a slots }
      { n with store := n.store.write b slots } :=
  ⟨by rw [h.rest], h.frames, h.recorded, h.environments, h.stores.write hcells slots,
    h.separate.write a slots, h.log⟩

/-- The same change of a scope that both sides see. -/
theorem modify (h : k.Paired frames m n) {id : Nat} (hid : k.Sees id)
    {change change' : Variables → Variables}
    (hchange : ∀ t t', k.Tables t t' → k.Tables (change t) (change' t'))
    (hholds : ∀ address, (change (m.environment.scope id).vars).Holds address →
      m.Holds id address ∨ m.Free address) :
    k.Paired frames { m with environment := m.environment.modifyVariables id change }
      { n with environment := n.environment.modifyVariables id change' } :=
  ⟨by rw [h.rest], h.frames, h.recorded, h.environments.modify hid (hchange _ _), h.stores,
    h.separate.modify _ _ hholds, h.log⟩

/-- The same module is recorded on both sides. -/
theorem record (h : k.Paired frames m n) (name : String) {scope : Nat}
    (hseen : k.Sees scope) (hlt : scope < m.environment.scopes.size)
    (houter : (m.environment.scope scope).outer = []) :
    k.Paired frames (m.recordModule name scope) (n.recordModule name scope) := by
  refine ⟨?_, h.frames, fun s hs => ?_, h.environments, h.stores,
    h.separate.record name hlt houter, h.log⟩
  · rw [h.rest]
    rfl
  · obtain rfl | hold := records_recordModule hs
    · exact hseen
    · exact h.recorded s hold

/-- The same scope is opened on both sides. -/
theorem enter (h : k.Paired frames m n) {parent : Option Nat}
    (hparent : ∀ id, parent = some id → k.Sees id) (name : String) {vars vars' : Variables}
    (hvars : k.Tables vars vars') (hfree : ∀ address, vars.Holds address → m.Free address) :
    k.Paired (m.environment.scopes.size :: frames) (entered m parent name vars)
      (entered n parent name vars') := by
  refine ⟨?_, congrArg _ h.frames, h.recorded, h.environments.enter hparent name hvars,
    h.stores, h.separate.enter parent name hfree, h.log⟩
  unfold entered
  rw [h.environments.size, h.rest]

/-- The innermost scope is closed on both sides. -/
theorem pop {scope : Nat} (h : k.Paired (scope :: frames) m n) (hseen : k.Sees scope) :
    k.Paired frames m.popScope n.popScope := by
  have hseparate := h.separate.pop
  rw [popScope_apply h.frames] at hseparate ⊢
  rw [popScope_apply h.frames_eq]
  refine ⟨by rw [h.rest], rfl, h.recorded, ?_, h.stores, hseparate, h.log⟩
  exact h.environments.modify hseen fun htables => htables.clear

end Paired

/-! ## Rules -/

variable {related : α → α → Prop} {related' : β → β → Prop}

/-- Sequences agree if their parts do, from states that are paired again. -/
theorem Agree.bind {meets : Machine → α → α → Prop} {meets' : Machine → β → β → Prop}
    {x x' : Exec α} {f f' : α → Exec β} (hx : k.Agree frames meets (x m) (x' n))
    (hf : ∀ a a' m' n', meets m' a a' → k.Paired frames m' n' →
      k.Agree frames meets' (f a m') (f' a' n')) :
    k.Agree frames meets' ((x >>= f) m) ((x' >>= f') n) := by
  rw [bind_apply, bind_apply]
  generalize x m = r at hx
  generalize x' n = r' at hx
  cases hx with
  | ok results paired => exact hf _ _ _ _ results paired
  | fault fault paired => exact .fault fault paired
  | returned results paired => exact .returned results paired
  | suspended paired => exact .suspended paired

/-- However a computation ends, the states that it leaves in the two runs are paired. -/
theorem Agree.final {meets : Machine → α → α → Prop} {x x' : Exec α}
    (h : k.Agree frames meets (x m) (x' n)) :
    ∃ inner, k.Paired (inner ++ frames) (x.final m) (x'.final n) := by
  unfold Exec.final
  generalize x m = r at h
  generalize x' n = r' at h
  cases h with
  | ok _ paired => exact ⟨[], paired⟩
  | fault _ paired => exact ⟨[], paired⟩
  | returned _ paired => exact ⟨[], paired⟩
  | suspended paired => exact ⟨_, paired⟩

/-- Sequences are parallel if their parts are. -/
theorem Parallel.bind {x x' : Exec α} {f f' : α → Exec β}
    (hx : k.Parallel frames related x x')
    (hf : ∀ a a', related a a' → k.Parallel frames related' (f a) (f' a')) :
    k.Parallel frames related' (x >>= f) (x' >>= f') :=
  fun m n hpaired => (hx m n hpaired).bind fun a a' m' n' results paired =>
    hf a a' results m' n' paired

/-- What follows on a result that is the same in both runs. -/
theorem Parallel.next {x x' : Exec α} {f f' : α → Exec β} (hx : k.Parallel frames Eq x x')
    (hf : ∀ a, k.Parallel frames related' (f a) (f' a)) :
    k.Parallel frames related' (x >>= f) (x' >>= f') :=
  hx.bind fun a _ heq => heq ▸ hf a

theorem parallel_pure {a a' : α} (h : related a a') :
    k.Parallel frames related (pure a) (pure a') :=
  fun _ _ hpaired => .ok h hpaired

theorem parallel_fail (fault : Fault) :
    k.Parallel frames related (fail fault) (fail fault) :=
  fun _ _ hpaired => .fault fault hpaired

theorem parallel_lift (x : Except Fault α) : k.Parallel frames Eq (lift x) (lift x) := by
  cases x with
  | ok a => exact parallel_pure rfl
  | error fault => exact parallel_fail fault

/-- What depends on the state, on both sides. -/
theorem parallel_get {f f' : Machine → Exec α}
    (hf : ∀ m n, k.Paired frames m n → k.Parallel frames related (f m) (f' n)) :
    k.Parallel frames related (get >>= f) (get >>= f') := by
  intro m n hpaired
  rw [get_bind_apply, get_bind_apply]
  exact hf m n hpaired m n hpaired

/-- The same change on both sides. -/
theorem parallel_modify {change change' : Machine → Machine}
    (h : ∀ m n, k.Paired frames m n → k.Paired frames (change m) (change' n)) :
    k.Parallel frames Eq (modify change : Exec PUnit) (modify change') :=
  fun m n hpaired => .ok rfl (h m n hpaired)

/-- A tick on both sides: both are suspended, or none is. -/
theorem parallel_tick (next : Option Access) :
    k.Parallel frames Eq (tick next) (tick next) := by
  intro m n hpaired
  cases hticks : m.ticks with
  | zero =>
    rw [tick_of_zero hticks, tick_of_zero (hpaired.ticks_eq.trans hticks)]
    have hpaused : k.Paired ([] ++ frames) { m with pending := next }
        { n with pending := next } := hpaired.pause next
    exact .suspended hpaused
  | succ ticks =>
    rw [tick_of_succ hticks, tick_of_succ (hpaired.ticks_eq.trans hticks)]
    exact .ok rfl (hpaired.tick ticks)

/-- A conversion fails in both runs or in none. -/
theorem parallel_settle (c : Conversion) (x : Except Fault α) :
    k.Parallel frames Eq (settle c x) (settle c x) := by
  cases x with
  | ok a => exact parallel_pure rfl
  | error fault => exact fun m n hpaired => .fault fault (hpaired.refuse c)

/-- Operands that correspond are revealed as the same value. -/
theorem parallel_reveal {a b : Operand} (h : k.Operands a b) :
    k.Parallel frames Eq (reveal a) (reveal b) :=
  parallel_get fun _ _ hpaired => parallel_pure (hpaired.reveal_eq h).symm

/-- The same value is kept, and what it is kept as corresponds. -/
theorem parallel_keep (v : Value) : k.Parallel frames k.Operands (keep v) (keep v) :=
  fun _ _ hpaired => .ok (hpaired.stores.keep v).2 (hpaired.keep v)

/-- What is done in the innermost scope. -/
theorem parallel_here (h : k.Active frames) {f f' : Nat → Exec α}
    (hf : ∀ scope, k.Sees scope → k.Parallel frames related (f scope) (f' scope)) :
    k.Parallel frames related (activeScope >>= f) (activeScope >>= f') := by
  have hscope : k.Parallel frames (fun s s' => s = s' ∧ k.Sees s) activeScope
      activeScope := by
    refine parallel_get fun _ _ hpaired => ?_
    rw [hpaired.frames, hpaired.frames_eq]
    cases hframes : frames with
    | nil => exact parallel_fail _
    | cons scope rest => exact parallel_pure ⟨rfl, h scope (by rw [hframes]; rfl)⟩
  refine hscope.bind fun scope _ hscope => ?_
  obtain ⟨rfl, hseen⟩ := hscope
  exact hf scope hseen

/-- A module's scope is the same one, and is seen. -/
theorem parallel_moduleScope (name : String) :
    k.Parallel frames (fun s s' => s = s' ∧ k.Sees s) (moduleScope name)
      (moduleScope name) := by
  intro m n hpaired
  have hmodules : n.modules = m.modules := by rw [hpaired.rest]
  rw [moduleScope_apply, moduleScope_apply, hmodules]
  cases hlookup : m.modules.lookup name with
  | none => exact .fault _ hpaired
  | some scope => exact .ok ⟨rfl, hpaired.recorded scope (records_of_lookup hlookup)⟩ hpaired

/-- Variables that are looked up from a scope that is seen correspond. -/
theorem parallel_variableIn {scope : Nat} (hseen : k.Sees scope) (target : Occurrence) :
    k.Parallel frames k.Vars (variableIn scope target) (variableIn scope target) := by
  refine (parallel_tick _).next fun _ => parallel_get fun m n hpaired => ?_
  have hfind := hpaired.environments.find? hseen target.name
  unfold Environment.lookup
  generalize m.environment.find? scope target.name = found at hfind
  generalize n.environment.find? scope target.name = found' at hfind
  cases hfind with
  | none => exact parallel_fail _
  | some hvars => exact parallel_pure hvars

/-- A slot is set in cells that correspond, or fails in both. -/
theorem parallel_setSlot {a b : Nat} (hcells : k.Cells a b) (index : Int) (content : Value) :
    k.Parallel frames Eq (setSlot a index content) (setSlot b index content) := by
  intro m n hpaired
  rw [setSlot_apply, setSlot_apply, hpaired.stores.slots a b hcells]
  cases Value.setSlotAt (m.store.slots a) index (some content) with
  | ok slots => exact .ok rfl (hpaired.write hcells slots)
  | error fault => exact .fault fault hpaired

/-- Events that correspond are emitted. -/
theorem parallel_emit {event event' : Event} (h : k.Events event event') :
    k.Parallel frames Eq (emit event) (emit event') :=
  parallel_modify fun _ _ hpaired => hpaired.emit h

/-- The same message is traced. -/
theorem parallel_trace (level : Nat) {message message' : Machine → Except Fault String}
    (h : ∀ m n, k.Paired frames m n → message' n = message m) :
    k.Parallel frames Eq (trace level message) (trace level message') := by
  refine parallel_get fun m n hpaired => ?_
  have hverbosity : n.verbosity = m.verbosity := by rw [hpaired.rest]
  have htracing : n.tracing = m.tracing := by rw [hpaired.rest]
  rw [hverbosity, htracing, h m n hpaired]
  split
  · refine (parallel_lift _).next fun text => parallel_emit ?_
    split
    · exact .traced text
    · exact .noticed text
  · exact parallel_pure rfl

/-- A message that ends with the text of an operand. -/
theorem parallel_traceText (level : Nat) (before : String) {a b : Operand}
    (h : k.Operands a b) :
    k.Parallel frames Eq (trace level fun m => do return before ++ (← m.textOf a))
      (trace level fun m => do return before ++ (← m.textOf b)) :=
  parallel_trace level fun _ _ hpaired => by rw [hpaired.textOf_eq h]

/-- The same answer is taken. -/
theorem parallel_nextAnswer (name : String) (t : DeclaredType) :
    k.Parallel frames Eq (nextAnswer name t) (nextAnswer name t) := by
  rw [nextAnswer_eq]
  refine parallel_get fun m n hpaired => ?_
  have hinteractive : n.interactive = m.interactive := by rw [hpaired.rest]
  have hanswers : n.answers = m.answers := by rw [hpaired.rest]
  -- what is read is the same, whether or not there was a prompt before
  have hread : ∀ fault, k.Parallel frames Eq (takeAnswer fault m.answers)
      (takeAnswer fault m.answers) := by
    intro fault
    cases m.answers with
    | nil => exact parallel_fail _
    | cons answer answers =>
      exact (parallel_modify fun _ _ hpaired => hpaired.answer answers).next fun _ =>
        parallel_pure rfl
  rw [hinteractive, hanswers]
  dsimp only
  split
  · exact (parallel_emit (.prompted _)).next fun _ => hread _
  · exact hread _

/-! ### Values for variables -/

/-- Operands that correspond, the first of which no variable holds yet. -/
def Fresh (k : Fork) (m : Machine) (a b : Operand) : Prop :=
  k.Operands a b ∧ ∀ address, a = .cell address → m.Free address

/-- A value is converted to one that no variable holds, and nothing is held that was
not held before. -/
theorem agree_convert (hpaired : k.Paired frames m n) {a b : Operand}
    (h : k.Operands a b) (t : DeclaredType) :
    k.Agree frames (fun m' a' b' => k.Fresh m' a' b' ∧
        ∀ address, m.Free address → m'.Free address)
      (convert a t m) (convert b t n) := by
  rw [convert_apply, convert_apply, hpaired.reveal_eq h]
  cases (m.store.reveal a).convert t with
  | error fault => exact .fault fault (hpaired.refuse _)
  | ok v =>
    refine .ok ⟨⟨(hpaired.stores.keep v).2, ?_⟩, ?_⟩ (hpaired.keep v)
    · exact fun address => hpaired.separate.free
    · exact fun address hfree => hfree.keep v

/-- A table whose arrays are those of another one, or one that no variable holds. -/
theorem holds_or_free {vars : Variables} {scope : Nat} {a b : Operand}
    (hfresh : k.Fresh m a b)
    (h : ∀ address, vars.Holds address → m.Holds scope address ∨ a = .cell address) :
    ∀ address, vars.Holds address → m.Holds scope address ∨ m.Free address :=
  fun address hholds => (h address hholds).imp_right (hfresh.2 address)

/-- A value that nobody holds is declared in the innermost scope. -/
theorem agree_declareHere (hpaired : k.Paired frames m n) (hactive : k.Active frames)
    (t : DeclaredType) (name : String) {a b : Operand} (hfresh : k.Fresh m a b) :
    k.Agree frames (fun _ => Eq) (declareHere t name a m) (declareHere t name b n) := by
  cases hframes : frames with
  | nil =>
    subst hframes
    have hnone : ∀ held m', m'.frames = [] → declareHere t name held m' =
        .error (.fault (.execution .noActiveScope)) m' := by
      intro held m' hm'
      unfold declareHere activeScope
      rw [bind_apply, get_bind_apply, hm']
      rfl
    rw [hnone a m hpaired.frames, hnone b n hpaired.frames_eq]
    exact .fault _ hpaired
  | cons scope rest =>
    subst hframes
    rw [declareHere_apply hpaired.frames, declareHere_apply hpaired.frames_eq]
    refine .ok rfl (hpaired.modify (hactive scope rfl) ?_ ?_)
    · exact fun t₁ t₂ htables => htables.put t hfresh.1
    · exact holds_or_free hfresh fun address => Variables.holds_put

/-- A value that nobody holds is bound in a scope that is seen. -/
theorem agree_rebind (hpaired : k.Paired frames m n) {scope : Nat} (hseen : k.Sees scope)
    (name : String) {a b : Operand} (hfresh : k.Fresh m a b) :
    k.Agree frames (fun _ => Eq) (rebind scope name a m) (rebind scope name b n) := by
  rw [rebind_apply, rebind_apply, hpaired.environments.owner? hseen name]
  cases howner : m.environment.owner? scope name with
  | none => exact .fault _ hpaired
  | some owner =>
    have howner' := hpaired.environments.sees_owner? hseen howner
    refine .ok rfl (hpaired.modify howner' ?_ ?_)
    · exact fun t₁ t₂ htables => htables.rebind hfresh.1
    · exact holds_or_free hfresh fun address => Variables.holds_rebind

/-! ### Sequences, loops, bodies and scopes -/

/-- A list of computations is parallel if each of them is. -/
theorem parallel_mapM {γ : Type} {f : γ → Exec α}
    (hf : ∀ c, k.Parallel frames related (f c) (f c)) : ∀ cs : List γ,
      k.Parallel frames (List.Forall₂ related) (cs.mapM f) (cs.mapM f)
  | [] => parallel_pure .nil
  | c :: cs => by
    rw [List.mapM_cons]
    refine (hf c).bind fun a a' ha => (parallel_mapM hf cs).bind fun as as' has => ?_
    exact parallel_pure (.cons ha has)

theorem parallel_forM {γ : Type} {f : γ → Exec PUnit}
    (hf : ∀ c, k.Parallel frames Eq (f c) (f c)) : ∀ cs : List γ,
      k.Parallel frames Eq (cs.forM f) (cs.forM f)
  | [] => parallel_pure rfl
  | c :: cs => (hf c).next fun _ => parallel_forM hf cs

/-- So many rounds are parallel if guard and body are. -/
theorem parallel_repeatWhile {guard : Exec Bool} {body : Exec Unit}
    (hguard : k.Parallel frames Eq guard guard) (hbody : k.Parallel frames Eq body body) :
    ∀ limit, k.Parallel frames Eq (repeatWhile guard body limit)
      (repeatWhile guard body limit)
  | 0 => fun m n hpaired => by
    have hsame : k.Paired ([] ++ frames) m n := hpaired
    exact .suspended hsame
  | limit + 1 => hguard.next fun holds => by
    split
    · exact hbody.next fun _ => parallel_repeatWhile hguard hbody limit
    · exact parallel_pure rfl

/-- A loop is parallel if its guard and its body are. -/
theorem parallel_loop {guard : Exec Bool} {body : Exec Unit}
    (hguard : k.Parallel frames Eq guard guard) (hbody : k.Parallel frames Eq body body) :
    k.Parallel frames Eq (loop guard body) (loop guard body) := by
  intro m n hpaired
  unfold loop
  rw [hpaired.ticks_eq]
  exact parallel_repeatWhile hguard hbody _ m n hpaired

/-- The body of a function catches what is given back in it. -/
theorem parallel_runBody (function : String) {body : Exec Unit}
    (hbody : k.Parallel frames Eq body body) :
    k.Parallel frames (Option.Rel k.Operands) (Level.runBody function body)
      (Level.runBody function body) := by
  intro m n hpaired
  unfold Level.runBody
  rw [attempt_bind_apply, attempt_bind_apply]
  have hagree := hbody m n hpaired
  generalize body m = r at hagree
  generalize body n = r' at hagree
  cases hagree with
  | ok _ paired => exact .ok .none paired
  | fault fault paired => exact .fault _ paired
  | returned results paired => exact .ok results paired
  | suspended paired => exact .suspended paired

/-- A tick at the end of both. -/
theorem Agree.thenTick {x x' : Exec α} (h : k.Agree frames (fun _ => related) (x m) (x' n)) :
    k.Agree frames (fun _ => related) (x.thenTick m) (x'.thenTick n) := by
  unfold Exec.thenTick
  rw [attempt_bind_apply, attempt_bind_apply]
  generalize x m = r at h
  generalize x' n = r' at h
  cases h with
  | ok results paired =>
    exact ((parallel_tick none).next fun _ => parallel_pure results) _ _ paired
  | fault fault paired =>
    exact ((parallel_tick none).next fun _ => parallel_fail fault) _ _ paired
  | returned results paired =>
    exact ((parallel_tick none).next fun _ _ _ hpaired => .returned results hpaired) _ _ paired
  | suspended paired => exact .suspended paired

/-- What is tidied up behind a computation may close scopes. -/
theorem Agree.andThenTidy (inner : List Nat) {x x' : Exec α} {tidy : Machine → Machine}
    (h : k.Agree (inner ++ frames) (fun _ => related) (x m) (x' n))
    (htidy : ∀ m n, k.Paired (inner ++ frames) m n → k.Paired frames (tidy m) (tidy n)) :
    k.Agree frames (fun _ => related) (x.andThenTidy tidy m) (x'.andThenTidy tidy n) := by
  unfold Exec.andThenTidy
  generalize x m = r at h
  generalize x' n = r' at h
  cases h with
  | ok results paired => exact .ok results (htidy _ _ paired)
  | fault fault paired => exact .fault fault (htidy _ _ paired)
  | returned results paired => exact .returned results (htidy _ _ paired)
  | suspended paired =>
    rw [← List.append_assoc] at paired
    exact .suspended paired

/-- A computation in a new scope.  The runs see the scope. -/
theorem Agree.within (hpaired : k.Paired frames m n) {parent : Option Nat}
    (hparent : ∀ id, parent = some id → k.Sees id) (name : String) {vars vars' : Variables}
    (hvars : k.Tables vars vars') (hfree : ∀ address, vars.Holds address → m.Free address)
    {x x' : Nat → Exec α}
    (hx : let scope := m.environment.scopes.size
      k.Sees scope → k.Paired (scope :: frames) (entered m parent name vars)
        (entered n parent name vars') →
      k.Agree (scope :: frames) (fun _ => related) (x scope (entered m parent name vars))
        (x' scope (entered n parent name vars'))) :
    k.Agree frames (fun _ => related) (within parent name vars x m)
      (within parent name vars' x' n) := by
  have hseen := hpaired.environments.sees_new
  have hbody := (hx hseen (hpaired.enter hparent name hvars hfree)).thenTick
  rw [within_apply, within_apply, hpaired.environments.size]
  exact Agree.andThenTidy [_] hbody fun _ _ paired => paired.pop hseen

theorem parallel_closeTrace {x : Exec α} (h : k.Parallel frames related x x) :
    k.Parallel frames related (x.andThenTidy Machine.closeTrace)
      (x.andThenTidy Machine.closeTrace) :=
  fun m n hpaired => Agree.andThenTidy [] (h m n hpaired) fun _ _ paired =>
    paired.closeTrace

end Fork

end Pseudocode
