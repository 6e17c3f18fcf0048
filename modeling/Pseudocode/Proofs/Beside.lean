import Pseudocode.Proofs.Simulation.Interpreter

/-!
# Runs beside each other

Two runs of a program may differ in how much they trace, and in that the second has
more answers at hand.  As long as the first does not ask for an answer that only the
second has, they are in the same state but for the trace and the answers
(`Machine.Beside`).

Messages to the trace are written all along the way, some about values that have
changed since.  They must not fail, or tracing would change how a run ends; that is so
because a program can make only values that can be shown, and both runs have them in
all variables and cells.  The two logs are what is seen, at two verbosities, of one log
in which every event stands with the verbosity that shows it (`Event.upTo`).  So the log
with fewer messages is a part of the other one, and both are the same without messages.

> `Beside.message`, `beside_trace`: a message goes to the one log, whether or not it is seen
> in either of the two.

When the first run asks for an answer that only the second has, it fails and the other
goes on (`Exec.Lost`).  From there on nothing is compared but what had been written by
then: the second run only adds to its log.  That it does so need not be proved apart, as
it can be said of the second run beside itself, which never lacks an answer
(`beside_bind`).  This is why a computation is compared twice (`Exec.Together`): with the
other one, and the other one with itself.

The missing answer is told by its fault.  It leaves a call as it is, so at the end of a run
it can still be recognized (`Machine.Confirms`).
-/

namespace Pseudocode

open Exec Machine

/-! ## Logs -/

/-- Whether an event is a message about the run. -/
def Event.isMessage : Event → Bool
  | .traced _ | .noticed _ => true
  | _ => false

/-- What is seen at a verbosity of events that each need one. -/
def Event.upTo (verbosity : Nat) (full : List (Nat × Event)) : List Event :=
  (full.filter fun e => e.1 ≤ verbosity).map Prod.snd

/-- Only messages need a verbosity. -/
def Event.Levelled (full : List (Nat × Event)) : Prop :=
  ∀ e ∈ full, e.1 = 0 ↔ e.2.isMessage = false

namespace Event

variable {full : List (Nat × Event)} {v v' : Nat}

/-- A further event is seen if the verbosity shows it. -/
theorem upTo_append (level : Nat) (event : Event) :
    upTo v (full ++ [(level, event)]) =
      upTo v full ++ if level ≤ v then [event] else [] := by
  unfold upTo
  rw [List.filter_append, List.map_append]
  congr 1
  by_cases hlevel : level ≤ v
  · simp [hlevel]
  · simp [hlevel]

/-- The higher the verbosity, the more is seen. -/
theorem upTo_sublist (h : v ≤ v') : (upTo v full).Sublist (upTo v' full) := by
  refine List.Sublist.map _ (List.monotone_filter_right _ fun e he => ?_)
  rw [decide_eq_true_eq] at he ⊢
  omega

/-- What remains without the messages is what is seen at verbosity zero. -/
theorem filter_upTo (h : Levelled full) (v : Nat) :
    (upTo v full).filter (fun e => !e.isMessage) = upTo 0 full := by
  unfold upTo
  rw [List.filter_map, List.filter_filter]
  congr 1
  refine List.filter_congr fun e he => ?_
  have hlevel := h e he
  cases hmessage : e.2.isMessage with
  | false =>
    have hzero : e.1 = 0 := hlevel.mpr hmessage
    simp [Function.comp, hmessage, hzero]
  | true =>
    have hpositive : e.1 ≠ 0 := fun hzero => by simp [hlevel.mp hzero] at hmessage
    simp [Function.comp, hmessage, hpositive]

/-- What is no message is seen at every verbosity. -/
theorem filterMap_upTo (h : Levelled full) (v : Nat) {β : Type} {seen : Event → Option β}
    (hseen : ∀ e, e.isMessage = true → seen e = none) :
    (upTo v full).filterMap seen = (upTo 0 full).filterMap seen := by
  rw [← filter_upTo h v, List.filterMap_filter]
  refine List.filterMap_congr fun e _ => ?_
  cases hmessage : e.isMessage with
  | false => rfl
  | true => exact hseen e hmessage

theorem Levelled.append (h : Levelled full) {level : Nat} {event : Event}
    (hevent : level = 0 ↔ event.isMessage = false) : Levelled (full ++ [(level, event)]) := by
  intro e he
  rcases List.mem_append.mp he with he | he
  · exact h e he
  · cases List.mem_singleton.mp he
    exact hevent

end Event

/-! ## States -/

/-- Whether an operand is one that a program can make. -/
def Operand.Ordinary : Operand → Prop
  | .value v => v.Ordinary
  | .cell _ => True

/-- What two runs may differ in: how much they trace, and the answers that only the second
one has. -/
structure Contrast where
  verbosity : Nat
  verbosity' : Nat
  more : List String

/-- A state, and one with more answers in which more or less has been traced. -/
structure Machine.Beside (d : Contrast) (m n : Machine) : Prop where
  rest : n = { m with
    answers := m.answers ++ d.more, log := n.log, verbosity := d.verbosity' }
  verbosity : m.verbosity = d.verbosity
  asked : d.more = [] ∨ m.interactive = false
  logs : ∃ full, Event.Levelled full ∧ m.log.toList = Event.upTo d.verbosity full ∧
    n.log.toList = Event.upTo d.verbosity' full
  vars : m.Holding Operand.Ordinary
  cells : ∀ a, (Value.array (m.store.slots a)).Ordinary

/-- A machine that traces a message if it is verbose enough. -/
def Machine.told (m : Machine) (level : Nat) (event : Event) : Machine :=
  if level ≤ m.verbosity then { m with log := m.log.push event } else m

/-- A machine without messages, as if nothing had been traced. -/
def Machine.untraced (m : Machine) : Machine :=
  { m with
    log := (m.log.toList.filter fun e => !e.isMessage).toArray
    verbosity := 0 }

namespace Machine.Beside

variable {d : Contrast} {m n : Machine}

/-- Both have the same ticks left. -/
theorem ticks_eq (h : Beside d m n) : n.ticks = m.ticks := by rw [h.rest]

theorem frames_eq (h : Beside d m n) : n.frames = m.frames := by rw [h.rest]

theorem environment_eq (h : Beside d m n) : n.environment = m.environment := by
  rw [h.rest]

theorem store_eq (h : Beside d m n) : n.store = m.store := by rw [h.rest]

theorem modules_eq (h : Beside d m n) : n.modules = m.modules := by rw [h.rest]

theorem interactive_eq (h : Beside d m n) : n.interactive = m.interactive := by
  rw [h.rest]

theorem tracing_eq (h : Beside d m n) : n.tracing = m.tracing := by rw [h.rest]

/-- The second one has further answers behind those of the first. -/
theorem answers_eq (h : Beside d m n) : n.answers = m.answers ++ d.more := by rw [h.rest]

theorem verbosity_eq (h : Beside d m n) : n.verbosity = d.verbosity' := by rw [h.rest]

/-- The second state is beside itself. -/
theorem self (h : Beside d m n) : Beside ⟨d.verbosity', d.verbosity', []⟩ n n := by
  obtain ⟨full, hlevelled, -, hlog⟩ := h.logs
  refine ⟨?_, h.verbosity_eq, .inl rfl, ⟨full, hlevelled, hlog, hlog⟩, ?_, ?_⟩
  · rw [List.append_nil, ← h.verbosity_eq]
  · intro id
    rw [h.environment_eq]
    exact h.vars id
  · rw [h.store_eq]
    exact h.cells

/-- A change of anything but answers, log and verbosity. -/
theorem change (h : Beside d m n) {f : Machine → Machine}
    (hf : ∀ (m : Machine) answers log verbosity, f { m with answers, log, verbosity } =
      { f m with answers, log, verbosity })
    (hinteractive : (f m).interactive = m.interactive)
    (hvars : (f m).Holding Operand.Ordinary)
    (hcells : ∀ a, (Value.array ((f m).store.slots a)).Ordinary) :
    Beside d (f m) (f n) := by
  have hm : f m =
      { f m with answers := m.answers, log := m.log, verbosity := m.verbosity } := hf m ..
  have hn := hf m (m.answers ++ d.more) n.log d.verbosity'
  rw [← h.rest] at hn
  have hlog : (f m).log = m.log := by rw [hm]
  have hverbosity : (f m).verbosity = m.verbosity := by rw [hm]
  have hanswers : (f m).answers = m.answers := by rw [hm]
  refine ⟨?_, hverbosity.trans h.verbosity, ?_, ?_, hvars, hcells⟩
  · rw [hn, hanswers]
  · rw [hinteractive]
    exact h.asked
  · rw [hlog, hn]
    exact h.logs

/-- A tick is used up in both. -/
theorem tick (h : Beside d m n) (ticks : Nat) :
    Beside d { m with ticks } { n with ticks } :=
  h.change (f := fun m => { m with ticks }) (fun _ _ _ _ => rfl) rfl h.vars h.cells

theorem pause (h : Beside d m n) (pending : Option Access) :
    Beside d { m with pending } { n with pending } :=
  h.change (f := fun m => { m with pending }) (fun _ _ _ _ => rfl) rfl h.vars h.cells

/-- The same conversion was refused in both. -/
theorem refuse (h : Beside d m n) (c : Conversion) :
    Beside d { m with refused := some c } { n with refused := some c } :=
  h.change (f := fun m => { m with refused := some c }) (fun _ _ _ _ => rfl) rfl h.vars h.cells

theorem close (h : Beside d m n) : Beside d m.closeTrace n.closeTrace :=
  h.change (f := closeTrace) (fun _ _ _ _ => rfl) rfl h.vars h.cells

theorem record (h : Beside d m n) (name : String) (scope : Nat) :
    Beside d (m.recordModule name scope) (n.recordModule name scope) :=
  h.change (f := fun m => m.recordModule name scope) (fun _ _ _ _ => rfl) rfl h.vars h.cells

/-- An answer is taken from those that both have. -/
theorem answer (h : Beside d m n) (answers : List String) :
    Beside d { m with answers } { n with answers := answers ++ d.more } :=
  ⟨by rw [h.rest], h.verbosity, h.asked, h.logs, h.vars, h.cells⟩

/-- Both make the same cell for an array. -/
theorem keep (h : Beside d m n) {v : Value} (hv : v.Ordinary) :
    Beside d { m with store := (m.store.keep v).2 }
      { n with store := (n.store.keep v).2 } := by
  refine h.change (f := fun m => { m with store := (m.store.keep v).2 }) (fun _ _ _ _ => rfl)
    rfl h.vars fun a => ?_
  cases v with
  | array slots =>
    show (Value.array ((m.store.cells.push slots).getD a [])).Ordinary
    rw [Array.getD_eq_getD_getElem?, Array.getElem?_push]
    split
    · exact hv
    · rw [← Array.getD_eq_getD_getElem?]
      exact h.cells a
  | scalar _ | bare => exact h.cells a

theorem write (h : Beside d m n) (i : Nat) {slots : List (Option Value)}
    (hslots : (Value.array slots).Ordinary) :
    Beside d { m with store := m.store.write i slots }
      { n with store := n.store.write i slots } := by
  refine h.change (f := fun m => { m with store := m.store.write i slots })
    (fun _ _ _ _ => rfl) rfl h.vars fun a => ?_
  show (Value.array ((m.store.write i slots).slots a)).Ordinary
  rw [Store.slots_write]
  split
  · exact hslots
  · exact h.cells a

theorem modify (h : Beside d m n) (id : Nat) {change : Variables → Variables}
    (hchange : ∀ t, t.Holding Operand.Ordinary → (change t).Holding Operand.Ordinary) :
    Beside d { m with environment := m.environment.modifyVariables id change }
      { n with environment := n.environment.modifyVariables id change } :=
  h.change (f := fun m => { m with environment := m.environment.modifyVariables id change })
    (fun _ _ _ _ => rfl) rfl (h.vars.modify id hchange) h.cells

theorem enter (h : Beside d m n) (parent : Option Nat) (name : String) {vars : Variables}
    (hvars : vars.Holding Operand.Ordinary) :
    Beside d (entered m parent name vars) (entered n parent name vars) :=
  h.change (f := fun m => entered m parent name vars) (fun _ _ _ _ => rfl) rfl
    (h.vars.enter parent name hvars) h.cells

theorem pop (h : Beside d m n) : Beside d m.popScope n.popScope := by
  cases hframes : m.frames with
  | nil =>
    unfold popScope
    rw [h.frames_eq, hframes]
    exact h
  | cons scope rest =>
    have hvars := h.vars.pop
    rw [popScope_apply hframes] at hvars ⊢
    rw [popScope_apply (h.frames_eq.trans hframes)]
    exact h.change
      (f := fun m => { m with environment := m.environment.clear scope, frames := rest })
      (fun _ _ _ _ => rfl) rfl hvars h.cells

/-- An event that is no message. -/
theorem emit (h : Beside d m n) {event : Event} (hevent : event.isMessage = false) :
    Beside d { m with log := m.log.push event } { n with log := n.log.push event } := by
  obtain ⟨full, hlevelled, hm, hn⟩ := h.logs
  refine ⟨by rw [h.rest], h.verbosity, h.asked, ⟨full ++ [(0, event)],
    hlevelled.append (by simp [hevent]), ?_, ?_⟩, h.vars, h.cells⟩
  · rw [Event.upTo_append, if_pos (Nat.zero_le _), Array.toList_push, hm]
  · rw [Event.upTo_append, if_pos (Nat.zero_le _), Array.toList_push, hn]

/-- A message is seen in one of the logs, in both, or in neither. -/
theorem message (h : Beside d m n) {level : Nat} (hlevel : 0 < level) {event : Event}
    (hevent : event.isMessage = true) :
    Beside d (m.told level event) (n.told level event) := by
  obtain ⟨full, hlevelled, hm, hn⟩ := h.logs
  have hlog : ∀ (z : Machine) {v}, z.verbosity = v → z.log.toList = Event.upTo v full →
      ∃ log : Array Event, z.told level event = { z with log } ∧
        log.toList = Event.upTo v (full ++ [(level, event)]) := by
    intro z v hv hz
    subst hv
    unfold told
    rw [Event.upTo_append]
    by_cases hle : level ≤ z.verbosity
    · exact ⟨z.log.push event, if_pos hle, by simp [hle, hz]⟩
    · exact ⟨z.log, if_neg hle, by simp [hle, hz]⟩
  have hfull : Event.Levelled (full ++ [(level, event)]) := by
    refine hlevelled.append ?_
    rw [hevent]
    simp only [Bool.true_eq_false, iff_false]
    omega
  obtain ⟨log, htold, hm'⟩ := hlog m h.verbosity hm
  obtain ⟨log', htold', hn'⟩ := hlog n h.verbosity_eq hn
  rw [htold, htold']
  exact ⟨by rw [h.rest], h.verbosity, h.asked, ⟨_, hfull, hm', hn'⟩, h.vars, h.cells⟩

/-- Outputs are no messages. -/
theorem printed_eq (h : Beside d m n) : n.printed = m.printed := by
  obtain ⟨full, hlevelled, hm, hn⟩ := h.logs
  unfold printed
  rw [hm, hn]
  refine (Event.filterMap_upTo hlevelled _ ?_).trans (Event.filterMap_upTo hlevelled _ ?_).symm
  all_goals
    intro e he
    cases e with
    | written _ _ => cases he
    | _ => rfl

/-- The value of an operand that a program can make. -/
theorem ordinary (h : Beside d m n) {a : Operand} (ha : a.Ordinary) :
    (m.store.reveal a).Ordinary := by
  cases a with
  | value v => exact ha
  | cell i => exact h.cells i

end Machine.Beside

/-! ## Computations -/

/-- The state that a computation left. -/
def Exec.state {α : Type} : EStateM.Result Halt Machine α → Machine
  | .ok _ m | .error _ m => m

/-- The same operand, and one that a program can make. -/
def Operand.Same (a b : Operand) : Prop := a = b ∧ a.Ordinary

/-- No answer is left if a fault says so. -/
def Machine.Confirms (m : Machine) (fault : Fault) : Prop :=
  ∀ name, fault = .execution (.noAnswer name) → m.answers = []

/-- What is raised at once does not want an answer. -/
theorem Fault.Immediate.confirms {fault : Fault} (h : fault.Immediate) (m : Machine) :
    m.Confirms fault := by
  intro name heq
  cases heq
  exact h.elim

/-- A fault that leaves a call says so if it did inside. -/
theorem Machine.Confirms.leaving {m : Machine} {fault : Fault} (h : m.Confirms fault)
    (function : String) : m.Confirms (fault.leaving function) := by
  intro name heq
  cases fault with
  | execution reason => exact h name heq
  | _ => cases heq

/-- Two computations ended the same way; if both have results, these are related. -/
inductive Exec.Accompanied {α : Type} (d : Contrast) (related : α → α → Prop) :
    EStateM.Result Halt Machine α → EStateM.Result Halt Machine α → Prop where
  | ok {a a' m n} (results : related a a') (beside : Machine.Beside d m n) :
      Accompanied d related (.ok a m) (.ok a' n)
  | fault (fault) {m n} (confirms : m.Confirms fault) (beside : Machine.Beside d m n) :
      Accompanied d related (.error (.fault fault) m) (.error (.fault fault) n)
  | returned {r r' m n} (results : Option.Rel Operand.Same r r')
      (beside : Machine.Beside d m n) :
      Accompanied d related (.error (.returned r) m) (.error (.returned r') n)
  | suspended {m n} (beside : Machine.Beside d m n) :
      Accompanied d related (.error .suspended m) (.error .suspended n)

/-- A computation ended for want of an answer, when no more had been written than in a
given state.  It may have used up its ticks since. -/
inductive Exec.Lost {α : Type} (n : Machine) : EStateM.Result Halt Machine α → Prop where
  | fault (name) {m : Machine} (answers : m.answers = []) (printed : m.printed <+: n.printed) :
      Lost n (.error (.fault (.execution (.noAnswer name))) m)
  | suspended {m : Machine} (answers : m.answers = []) (printed : m.printed <+: n.printed) :
      Lost n (.error .suspended m)

/-- The second computation added to a log; and either both ended the same way, or the first
one for want of an answer that only the second one had. -/
structure Exec.Together {α : Type} (d : Contrast) (before : Machine)
    (related : α → α → Prop) (r r' : EStateM.Result Halt Machine α) : Prop where
  grows : before.log.toList <+: (state r').log.toList
  ends : Accompanied d related r r' ∨ d.more ≠ [] ∧ Lost (state r') r

/-- Code that runs beside itself. -/
def beside : Simulation where
  Operands := Operand.Same
  Scopes := Eq
  Tables t t' := t = t' ∧ t.Holding Operand.Ordinary
  Runs related x x' := ∀ d m n, Machine.Beside d m n →
    Together d n related (x m) (x' n)

namespace Exec

variable {d : Contrast} {m n : Machine} {α β : Type} {related : α → α → Prop}
  {related' : β → β → Prop}

/-- A log only grows. -/
theorem prefix_push (log : Array Event) (event : Event) :
    log.toList <+: (log.push event).toList := by
  rw [Array.toList_push]
  exact List.prefix_append ..

/-- It stays lost while the other goes on. -/
theorem Lost.mono {r : EStateM.Result Halt Machine α} {z : Machine} (h : Lost n r)
    (hgrows : n.log.toList <+: z.log.toList) : Lost z r := by
  have hlater : n.printed <+: z.printed := hgrows.filterMap _
  cases h with
  | fault name answers printed => exact .fault name answers (printed.trans hlater)
  | suspended answers printed => exact .suspended answers (printed.trans hlater)

/-- What would have followed does not happen. -/
theorem Lost.bind {x : Exec α} (h : Lost n (x m)) (f : α → Exec β) :
    Lost n ((x >>= f) m) := by
  rw [bind_apply]
  generalize x m = r at h
  cases h with
  | fault name answers printed => exact .fault name answers printed
  | suspended answers printed => exact .suspended answers printed

/-- If there are no more answers, a result of the second computation is one of the first. -/
theorem Together.result {r : EStateM.Result Halt Machine α} {before : Machine} {a' : α}
    (h : Together d before related r (.ok a' n)) (hmore : d.more = []) :
    ∃ a m, r = .ok a m ∧ related a a' ∧ Machine.Beside d m n := by
  rcases h.ends with hends | hlost
  · cases hends with
    | ok results beside => exact ⟨_, _, rfl, results, beside⟩
  · exact absurd hmore hlost.1

/-- What follows is compared if both go on.  If the first is lost, the second one goes on
alone, and what it does is known from itself beside itself. -/
theorem beside_bind {x x' : Exec α} {f f' : α → Exec β} (hx : beside.Runs related x x')
    (hf : ∀ a a', related a a' → beside.Runs related' (f a) (f' a')) :
    beside.Runs related' (x >>= f) (x' >>= f') := by
  intro d m n h
  obtain ⟨hgrows, hends⟩ := hx d m n h
  -- the second computation adds to its log whatever became of the first
  have hlater : (state (x' n)).log.toList <+: (state ((x' >>= f') n)).log.toList := by
    have halone := hx _ n n h.self
    rw [bind_apply]
    cases hrun : x' n with
    | error _ _ => exact List.prefix_rfl
    | ok a' n' =>
      rw [hrun] at halone
      obtain ⟨a, m', -, hrelated, hbeside⟩ := halone.result rfl
      exact (hf a a' hrelated _ m' n' hbeside).grows
  refine ⟨hgrows.trans hlater, ?_⟩
  rcases hends with hends | ⟨hmore, hlost⟩
  · rw [bind_apply, bind_apply]
    generalize x m = r at hends
    generalize x' n = r' at hends
    cases hends with
    | ok results beside => exact (hf _ _ results d _ _ beside).ends
    | fault fault confirms beside => exact .inl (.fault fault confirms beside)
    | returned results beside => exact .inl (.returned results beside)
    | suspended beside => exact .inl (.suspended beside)
  · exact .inr ⟨hmore, (hlost.bind f).mono hlater⟩

/-- A tick.  Either both have one or none has. -/
theorem beside_tick (next : Option Access) : beside.Runs Eq (tick next) (tick next) := by
  intro d m n h
  cases hticks : m.ticks with
  | zero =>
    rw [tick_of_zero hticks, tick_of_zero (h.ticks_eq.trans hticks)]
    exact ⟨List.prefix_rfl, .inl (.suspended (h.pause next))⟩
  | succ ticks =>
    rw [tick_of_succ hticks, tick_of_succ (h.ticks_eq.trans hticks)]
    exact ⟨List.prefix_rfl, .inl (.ok rfl (h.tick ticks))⟩

/-- By induction on the ticks: a loop uses up one for each round. -/
theorem beside_loop {guard guard' : Exec Bool} {body body' : Exec Unit}
    (hguard : beside.Runs Eq guard guard') (hbody : beside.Runs Eq body body') :
    beside.Runs Eq (loop guard body) (loop guard' body') := by
  have hrounds : ∀ limit, beside.Runs Eq (repeatWhile guard body limit)
      (repeatWhile guard' body' limit) := by
    intro limit
    induction limit with
    | zero => exact fun _ _ _ h => ⟨List.prefix_rfl, .inl (.suspended h)⟩
    | succ limit ih =>
      refine beside_bind hguard fun holds _ heq => ?_
      subst heq
      cases holds with
      | true => exact beside_bind hbody fun _ _ _ => ih
      | false => exact fun _ _ _ h => ⟨List.prefix_rfl, .inl (.ok rfl h)⟩
  intro d m n h
  unfold loop
  rw [h.ticks_eq]
  exact hrounds _ d m n h

/-- A message that can be made. -/
theorem trace_apply {level : Nat} {message : Machine → Except Fault String} {text : String}
    (h : message m = .ok text) :
    trace level message m =
      .ok () (m.told level (if m.tracing then .traced text else .noticed text)) := by
  unfold trace told
  rw [get_bind_apply, h]
  split
  · rfl
  · rfl

/-- A message that can be made in both states. -/
theorem beside_trace (h : Machine.Beside d m n) {level : Nat} (hlevel : 0 < level)
    {message : Machine → Except Fault String} {text : String} (hm : message m = .ok text)
    (hn : message n = .ok text) :
    Together d n Eq (trace level message m) (trace level message n) := by
  have hevent : (if m.tracing then Event.traced text else .noticed text).isMessage = true := by
    cases m.tracing <;> rfl
  rw [trace_apply hm, trace_apply hn, h.tracing_eq]
  refine ⟨?_, .inl (.ok rfl (h.message hlevel hevent))⟩
  show _ <+: (n.told _ _).log.toList
  unfold told
  split
  · exact prefix_push _ _
  · exact List.prefix_rfl

/-- The one step at which a run can be lost. -/
theorem beside_nextAnswer (name : String) (type : DeclaredType) :
    beside.Runs Eq (nextAnswer name type) (nextAnswer name type) := by
  intro d m n h
  rw [nextAnswer_eq, get_bind_apply, get_bind_apply, h.interactive_eq, h.answers_eq]
  rcases h.asked with hmore | hscripted
  · -- the same answers, whether or not there is a prompt before
    rw [hmore, List.append_nil]
    have hread : ∀ {m' n'} fault, Machine.Beside d m' n' → m'.answers = m.answers →
        Together d n' Eq (takeAnswer fault m.answers m') (takeAnswer fault m.answers n') := by
      intro m' n' fault h' hsame
      cases hanswers : m.answers with
      | nil =>
        exact ⟨List.prefix_rfl, .inl (.fault fault (fun _ _ => hsame.trans hanswers) h')⟩
      | cons answer answers =>
        have hanswered := h'.answer answers
        rw [hmore, List.append_nil] at hanswered
        exact ⟨List.prefix_rfl, .inl (.ok rfl hanswered)⟩
    split
    · have hprompt :
          Event.isMessage (.prompted (name ++ " (" ++ type.text ++ "): ")) = false := rfl
      obtain ⟨hgrows, hends⟩ := hread (.execution (.inputEnded name)) (h.emit hprompt) rfl
      exact ⟨(prefix_push _ _).trans hgrows, hends⟩
    · exact hread _ h rfl
  · rw [hscripted]
    cases hanswers : m.answers with
    | cons answer answers => exact ⟨List.prefix_rfl, .inl (.ok rfl (h.answer answers))⟩
    | nil =>
      cases hmore : d.more with
      | nil => exact ⟨List.prefix_rfl, .inl (.fault _ (fun _ _ => hanswers) h)⟩
      | cons answer answers =>
        have hne : d.more ≠ [] := hmore ▸ List.cons_ne_nil _ _
        have hprinted : m.printed <+: n.printed := h.printed_eq ▸ List.prefix_rfl
        exact ⟨List.prefix_rfl, .inr ⟨hne, .fault name hanswers hprinted⟩⟩

theorem beside_activeScope : beside.Runs Eq activeScope activeScope := by
  intro d m n h
  unfold activeScope
  rw [get_bind_apply, get_bind_apply, h.frames_eq]
  cases m.frames with
  | nil => exact ⟨List.prefix_rfl, .inl (.fault _ nofun h)⟩
  | cons scope rest => exact ⟨List.prefix_rfl, .inl (.ok rfl h)⟩

theorem beside_declareHere (type : DeclaredType) (name : String) {a : Operand}
    (ha : a.Ordinary) :
    beside.Runs Eq (declareHere type name a) (declareHere type name a) := by
  intro d m n h
  cases hframes : m.frames with
  | nil =>
    rw [declareHere_of_nil hframes, declareHere_of_nil (h.frames_eq.trans hframes)]
    exact ⟨List.prefix_rfl, .inl (.fault _ nofun h)⟩
  | cons scope rest =>
    rw [declareHere_apply hframes, declareHere_apply (h.frames_eq.trans hframes)]
    exact ⟨List.prefix_rfl, .inl (.ok rfl (h.modify scope fun _ ht => ht.put ha))⟩

theorem beside_rebind (scope : Nat) (name : String) {a : Operand} (ha : a.Ordinary) :
    beside.Runs Eq (rebind scope name a) (rebind scope name a) := by
  intro d m n h
  rw [rebind_apply, rebind_apply, h.environment_eq]
  cases m.environment.owner? scope name with
  | none => exact ⟨List.prefix_rfl, .inl (.fault _ nofun h)⟩
  | some owner =>
    have hrebind : ∀ t : Variables, t.Holding Operand.Ordinary →
        (t.rebind name (.held a)).Holding Operand.Ordinary := fun _ ht => ht.rebind ha
    have hrebound := h.modify owner hrebind
    rw [h.environment_eq] at hrebound
    exact ⟨List.prefix_rfl, .inl (.ok rfl hrebound)⟩

theorem beside_variableIn (scope : Nat) (target : Occurrence) :
    beside.Runs beside.Vars (variableIn scope target) (variableIn scope target) := by
  refine beside_bind (beside_tick _) fun _ _ _ d m n h => ?_
  rw [get_bind_apply, get_bind_apply, h.environment_eq]
  unfold Environment.lookup
  cases hfound : m.environment.find? scope target.name with
  | none => exact ⟨List.prefix_rfl, .inl (.fault _ nofun h)⟩
  | some v =>
    obtain ⟨operand, hbinding, hordinary⟩ := h.vars.find? hfound
    obtain ⟨type, binding⟩ := v
    cases hbinding
    exact ⟨List.prefix_rfl, .inl (.ok (.held type ⟨rfl, hordinary⟩) h)⟩

theorem beside_keep {v : Value} (hv : v.Ordinary) :
    beside.Runs Operand.Same (keep v) (keep v) := by
  intro d m n h
  have hkept : Operand.Same (m.store.keep v).1 (n.store.keep v).1 := by
    rw [h.store_eq]
    refine ⟨rfl, ?_⟩
    cases v with
    | array slots => trivial
    | scalar _ | bare => exact hv
  exact ⟨List.prefix_rfl, .inl (.ok hkept (h.keep hv))⟩

/-- A slot that does not exist is refused in both. -/
theorem beside_setSlot (i : Nat) (index : Int) (s : Scalar) :
    beside.Runs Eq (setSlot i index (.scalar s)) (setSlot i index (.scalar s)) := by
  intro d m n h
  rw [setSlot_apply, setSlot_apply, h.store_eq]
  cases hset : Value.setSlotAt (m.store.slots i) index (some (.scalar s)) with
  | error fault =>
    have himmediate := (Value.told_setSlotAt _ _ _ fault hset).immediate
    exact ⟨List.prefix_rfl, .inl (.fault fault (himmediate.confirms m) h)⟩
  | ok slots =>
    have hwritten := h.write i ((h.cells i).setSlotAt hset)
    rw [h.store_eq] at hwritten
    exact ⟨List.prefix_rfl, .inl (.ok rfl hwritten)⟩

/-- Every operand that a program can make has a text. -/
theorem beside_text (h : Machine.Beside d m n) {a : Operand} (ha : a.Ordinary) :
    ∃ text, m.textOf a = .ok text ∧ n.textOf a = .ok text := by
  obtain ⟨text, htext⟩ := (h.ordinary ha).toText
  refine ⟨text, htext, ?_⟩
  unfold textOf
  rw [h.store_eq]
  exact htext

/-- What is written is no message, so both logs have it. -/
theorem beside_write {a : Operand} (ha : a.Ordinary) :
    beside.Runs Eq (Level.write a) (Level.write a) := by
  intro d m n h
  obtain ⟨text, hm, hn⟩ := beside_text h ha
  have hwrite : ∀ z : Machine, z.textOf a = .ok text →
      Level.write a z = .ok () { z with log := z.log.push (.written a text) } := by
    intro z hz
    unfold Level.write
    rw [get_bind_apply, hz]
    rfl
  rw [hwrite m hm, hwrite n hn]
  exact ⟨prefix_push _ _, .inl (.ok rfl (h.emit rfl))⟩

/-- A computation that was lost and used up a tick. -/
theorem Lost.thenTick {x : Exec α} (h : Lost n (x m)) : Lost n (x.thenTick m) := by
  unfold Exec.thenTick
  rw [attempt_bind_apply]
  generalize x m = r at h
  cases h with
  | suspended answers printed => exact .suspended answers printed
  | @fault name m' answers printed =>
    show Lost n ((tick >>= fun _ => throw (.fault (.execution (.noAnswer name)))) m')
    rw [bind_apply]
    cases hticks : m'.ticks with
    | zero =>
      rw [tick_of_zero hticks]
      exact .suspended answers printed
    | succ ticks =>
      rw [tick_of_succ hticks]
      exact .fault name answers printed

/-- A tick leaves no trace. -/
theorem log_thenTick (x : Exec α) (n : Machine) :
    (state (x.thenTick n)).log = (state (x n)).log := by
  have htick : ∀ (y : Exec α) (z : Machine), (∀ z, (state (y z)).log = z.log) →
      (state ((tick >>= fun _ => y) z)).log = z.log := by
    intro y z hy
    rw [bind_apply]
    cases hticks : z.ticks with
    | zero => rw [tick_of_zero hticks]; rfl
    | succ ticks => rw [tick_of_succ hticks]; exact hy _
  unfold Exec.thenTick
  rw [attempt_bind_apply]
  cases x n with
  | ok a z => exact htick (pure a) z fun _ => rfl
  | error halt z =>
    cases halt with
    | suspended => rfl
    | fault _ | returned _ => exact htick (throw _) z fun _ => rfl

theorem beside_thenTick {x x' : Exec α} (hx : beside.Runs related x x') :
    beside.Runs related x.thenTick x'.thenTick := by
  intro d m n h
  obtain ⟨hgrows, hends⟩ := hx d m n h
  have hlog := log_thenTick x' n
  refine ⟨hlog ▸ hgrows, ?_⟩
  rcases hends with hends | ⟨hmore, hlost⟩
  · -- both use up the same tick
    have hend : ∀ {y y' : Exec α} {m' n' : Machine}, Machine.Beside d m' n' →
        (∀ ticks, Accompanied d related (y { m' with ticks }) (y' { n' with ticks })) →
        Accompanied d related ((tick >>= fun _ => y) m') ((tick >>= fun _ => y') n') := by
      intro y y' m' n' h' hy
      rw [bind_apply, bind_apply]
      cases hticks : m'.ticks with
      | zero =>
        rw [tick_of_zero hticks, tick_of_zero (h'.ticks_eq.trans hticks)]
        exact .suspended (h'.pause none)
      | succ ticks =>
        rw [tick_of_succ hticks, tick_of_succ (h'.ticks_eq.trans hticks)]
        exact hy ticks
    unfold Exec.thenTick
    rw [attempt_bind_apply, attempt_bind_apply]
    generalize x m = r at hends
    generalize x' n = r' at hends
    cases hends with
    | ok results beside =>
      exact .inl (hend beside fun ticks => .ok results (beside.tick ticks))
    | fault fault confirms beside =>
      exact .inl (hend beside fun ticks => .fault fault confirms (beside.tick ticks))
    | returned results beside =>
      exact .inl (hend beside fun ticks => .returned results (beside.tick ticks))
    | suspended beside => exact .inl (.suspended beside)
  · exact .inr ⟨hmore, hlost.thenTick.mono (hlog ▸ List.prefix_rfl)⟩

/-- What is tidied up is neither the log nor the answers. -/
theorem beside_andThenTidy {x x' : Exec α} {tidy : Machine → Machine}
    (hx : beside.Runs related x x') (hlog : ∀ m, (tidy m).log = m.log)
    (hanswers : ∀ m, (tidy m).answers = m.answers)
    (htidy : ∀ d m n, Machine.Beside d m n → Machine.Beside d (tidy m) (tidy n)) :
    beside.Runs related (x.andThenTidy tidy) (x'.andThenTidy tidy) := by
  intro d m n h
  obtain ⟨hgrows, hends⟩ := hx d m n h
  have hsame : (state (x'.andThenTidy tidy n)).log = (state (x' n)).log := by
    unfold Exec.andThenTidy
    cases x' n with
    | ok a z => exact hlog z
    | error halt z =>
      cases halt with
      | suspended => rfl
      | fault _ | returned _ => exact hlog z
  refine ⟨hsame ▸ hgrows, ?_⟩
  rcases hends with hends | ⟨hmore, hlost⟩
  · unfold Exec.andThenTidy
    generalize x m = r at hends
    generalize x' n = r' at hends
    cases hends with
    | ok results beside => exact .inl (.ok results (htidy _ _ _ beside))
    | @fault fault m' _ confirms beside =>
      have hconfirms : (tidy m').Confirms fault := fun name heq =>
        (hanswers m').trans (confirms name heq)
      exact .inl (.fault fault hconfirms (htidy _ _ _ beside))
    | returned results beside => exact .inl (.returned results (htidy _ _ _ beside))
    | suspended beside => exact .inl (.suspended beside)
  · refine .inr ⟨hmore, Lost.mono (n := state (x' n)) ?_ (hsame ▸ List.prefix_rfl)⟩
    unfold Exec.andThenTidy
    generalize x m = r at hlost
    cases hlost with
    | suspended answers printed => exact .suspended answers printed
    | @fault name m' answers printed =>
      have hprinted : (tidy m').printed = m'.printed := by unfold Machine.printed; rw [hlog]
      exact .fault name ((hanswers m').trans answers) (hprinted ▸ printed)

/-- A scope is opened, and closed at the end, whatever that is. -/
theorem beside_within (parent : Option Nat) (name : String) {vars : Variables}
    (hvars : vars.Holding Operand.Ordinary) {x x' : Nat → Exec α}
    (hx : ∀ scope, beside.Runs related (x scope) (x' scope)) :
    beside.Runs related (within parent name vars x) (within parent name vars x') := by
  intro d m n h
  have hpop : ∀ m : Machine, m.popScope.log = m.log ∧ m.popScope.answers = m.answers := by
    intro m
    unfold popScope
    split <;> exact ⟨rfl, rfl⟩
  rw [within_apply, within_apply, h.environment_eq]
  obtain ⟨hgrows, hends⟩ := beside_andThenTidy (beside_thenTick (hx m.environment.scopes.size))
    (fun m => (hpop m).1) (fun m => (hpop m).2) (fun _ _ _ => Machine.Beside.pop) d _ _
    (h.enter parent name hvars)
  exact ⟨hgrows, hends⟩

/-- A missing answer leaves a call as such. -/
theorem beside_runBody (function : String) {body body' : Exec Unit}
    (hbody : beside.Runs Eq body body') :
    beside.Runs (Option.Rel Operand.Same) (Level.runBody function body)
      (Level.runBody function body') := by
  intro d m n h
  obtain ⟨hgrows, hends⟩ := hbody d m n h
  have hsame : state (Level.runBody function body' n) = state (body' n) := by
    unfold Level.runBody
    rw [attempt_bind_apply]
    cases body' n with
    | ok _ z => rfl
    | error halt z => cases halt <;> rfl
  refine ⟨hsame ▸ hgrows, ?_⟩
  rw [hsame]
  unfold Level.runBody
  rw [attempt_bind_apply, attempt_bind_apply]
  generalize body m = r at hends
  generalize body' n = r' at hends
  rcases hends with hends | ⟨hmore, hlost⟩
  · cases hends with
    | ok _ beside => exact .inl (.ok .none beside)
    | fault fault confirms beside => exact .inl (.fault _ (confirms.leaving function) beside)
    | returned results beside => exact .inl (.ok results beside)
    | suspended beside => exact .inl (.suspended beside)
  · cases hlost with
    | fault name answers printed => exact .inr ⟨hmore, .fault name answers printed⟩
    | suspended answers printed => exact .inr ⟨hmore, .suspended answers printed⟩

end Exec

/-! ## The simulation -/

/-- The simulation is lawful, since all its steps are those above. -/
theorem lawful_beside : beside.Lawful where
  value hv := ⟨rfl, hv⟩
  contents hslots hmem := ⟨rfl, hslots.2.content hmem⟩
  alike {a b} h := by
    obtain ⟨rfl, -⟩ := h
    cases a with
    | value v => exact .inl ⟨v, rfl, rfl⟩
    | cell i => exact .inr ⟨i, i, rfl, rfl⟩
  gives hrelated _ _ _ h := ⟨List.prefix_rfl, .inl (.ok hrelated h)⟩
  chains := beside_bind
  loops := beside_loop
  fails hfault _ m _ h := ⟨List.prefix_rfl, .inl (.fault _ (hfault.confirms m) h)⟩
  returns hresults _ _ _ h := ⟨List.prefix_rfl, .inl (.returned hresults h)⟩
  ticks := beside_tick none
  refusals c _ _ _ h := ⟨List.prefix_rfl, .inl (.ok rfl (h.refuse c))⟩
  reveals {a b} hoperands d m n h := by
    obtain ⟨rfl, ha⟩ := hoperands
    have hvalue : m.store.reveal a = n.store.reveal a := by rw [h.store_eq]
    exact ⟨List.prefix_rfl, .inl (.ok ⟨hvalue, rfl, h.ordinary ha⟩ h)⟩
  keeps hv := beside_keep hv
  setsSlot index s hoperands := by
    cases hoperands.1
    exact beside_setSlot _ index s
  active := beside_activeScope
  looksUp target hscope := hscope ▸ beside_variableIn _ target
  declares type name hoperands := hoperands.1 ▸ beside_declareHere type name hoperands.2
  rebinds name hscope hoperands := hscope ▸ hoperands.1 ▸ beside_rebind _ name hoperands.2
  empty := ⟨rfl, Variables.holding_nil⟩
  binds type name htables hoperands d m n h := by
    obtain ⟨rfl, ht⟩ := htables
    obtain ⟨rfl, ha⟩ := hoperands
    unfold Table.declare
    split
    · exact ⟨List.prefix_rfl, .inl (.fault _ nofun h)⟩
    · exact ⟨List.prefix_rfl, .inl (.ok ⟨rfl, ht.append ha⟩ h)⟩
  tracesLine text hlevel _ _ _ h := beside_trace h hlevel rfl rfl
  tracesDepth before hlevel _ _ _ h := beside_trace h hlevel rfl (by rw [h.frames_eq])
  tracesText before hlevel hoperands _ m n h := by
    obtain ⟨rfl, ha⟩ := hoperands
    obtain ⟨text, hm, hn⟩ := beside_text h ha
    exact beside_trace h hlevel (by rw [hm]; rfl) (by rw [hn]; rfl)
  reads := beside_nextAnswer
  writes hoperands := hoperands.1 ▸ beside_write hoperands.2

/-- Both have the same modules on record. -/
theorem scoped_beside (p : Program) (number : Nat) : beside.Scoped p number where
  finds {module} _ d m n h := by
    rw [moduleScope_apply, moduleScope_apply, h.modules_eq]
    cases m.modules.lookup module.name with
    | none => exact ⟨List.prefix_rfl, .inl (.fault _ nofun h)⟩
    | some scope => exact ⟨List.prefix_rfl, .inl (.ok rfl h)⟩
  refuses _ _ _ _ _ h := ⟨List.prefix_rfl, .inl (.fault _ nofun h)⟩
  catches function hbody := beside_runBody function hbody
  enters name hscope htables hx := by
    cases hscope
    obtain ⟨rfl, hvars⟩ := htables
    exact beside_within (some _) name hvars fun scope => hx scope scope rfl

end Pseudocode
