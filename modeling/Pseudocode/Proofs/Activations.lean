import Pseudocode.Proofs.Displacement
import Pseudocode.Proofs.Ownership.Interpreter

/-!
# One module after another

The modules of a program run one after the other on one machine, and the machine may be
used again for further runs.  Nothing of this shows: what comes out is what comes out if
each module runs on a machine that is new but for the answers and ticks that are left
(`Program.apart`, `Program.run_apart`).

A module that starts while no scope is open is displaced and nothing else
(`alongside_root`), and it leaves no scope open.  It changes no cell from before, and
what it writes is made of cells that exist when it ends; so what was written before is
not changed by the modules behind it.

What comes out is a `Transcript`: how the run ended, what was printed, what the operands
written are worth when it is over, and the answers that were not read.  The third is why the
cells matter: an operand may be an array, and its value is taken at the end, when later
modules have run (`Repeats.reveal`).

> `repeated_root`, `Repeated.bind`, `each_apart`: one module, one module and what follows,
> and all modules of a program.

The outline is traced first.  It writes nothing and can only fail, and it fails on a used
machine just as on a new one (`repeated_outline`).
-/

namespace Pseudocode

open Exec Machine

/-! ## What comes out -/

/-- What can be seen of a run: how it ended, the text of what was written at the moment
it was written, the values of what was written when the run had ended, and the answers
that were not read. -/
structure Transcript where
  outcome : Except Halt Unit
  printed : List String
  outputs : List Value
  unread : List String

/-- What can be seen of a run and of one that went on when it had ended. -/
def Transcript.followedBy (t t' : Transcript) : Transcript :=
  ⟨t'.outcome, t.printed ++ t'.printed, t.outputs ++ t'.outputs, t'.unread⟩

/-- The texts of what was written. -/
def Event.texts (events : List Event) : List String :=
  events.filterMap fun
    | .written _ text => some text
    | _ => none

/-- The operands that were written. -/
def Event.operands (events : List Event) : List Operand :=
  events.filterMap fun
    | .written operand _ => some operand
    | _ => none

/-- What can be seen in a state of what happened since the log had a given length. -/
def Machine.transcript (m : Machine) (start : Nat) (outcome : Except Halt Unit) :
    Transcript where
  outcome := outcome
  printed := Event.texts (m.log.toList.drop start)
  outputs := (m.outputsFrom start).map m.store.reveal
  unread := m.answers

/-- What can be seen of a run of a program on a machine. -/
def Program.transcript (p : Program) (m : Machine) : Transcript :=
  (p.runOn m).2.transcript m.log.size (p.runOn m).1

/-- What can be seen of modules of which each runs on a new machine that has only the
answers and ticks that are left; they run until the first one fails. -/
def Program.eachApart (p : Program) : List Nat → Machine → Transcript
  | [], m => ⟨.ok (), [], [], m.answers⟩
  | root :: roots, m =>
    match p.level.execute root m.renewed with
    | .ok () n => (n.transcript 0 (.ok ())).followedBy (p.eachApart roots n)
    | .error halt n => n.transcript 0 (.error halt)

/-- The same of all modules of a program, behind its outline in the trace. -/
def Program.apart (p : Program) (m : Machine) : Transcript :=
  match p.traceOutline m.renewed with
  | .ok () n => p.eachApart p.forest.roots n
  | .error halt n => n.transcript 0 (.error halt)

/-- Modules apart depend on nothing but the answers and ticks. -/
theorem Program.eachApart_congr (p : Program) (roots : List Nat) {m n : Machine}
    (h : n.renewed = m.renewed) : p.eachApart roots n = p.eachApart roots m := by
  cases roots with
  | nil =>
    have hanswers : n.renewed.answers = m.renewed.answers := by rw [h]
    exact congrArg (Transcript.mk (.ok ()) [] []) hanswers
  | cons root roots =>
    unfold eachApart
    rw [h]

/-! ## States that follow each other -/

/-- A later state of the same machine: cells from before have not changed, and the log
has only grown. -/
structure Machine.Extends (m n : Machine) : Prop where
  cells : m.store.cells.size ≤ n.store.cells.size
  slots : ∀ a < m.store.cells.size, n.store.slots a = m.store.slots a
  log : ∃ events, n.log.toList = m.log.toList ++ events

/-- A state of a new machine and the corresponding one of a used machine; what was
written on the new one is made of cells that exist. -/
structure Machine.Repeats (base f u : Machine) : Prop where
  displaced : Displaced base none f u
  made : ∀ operand text, .written operand text ∈ f.log.toList → f.store.Made operand

namespace Machine

variable {base f m n u z : Machine}

theorem Extends.refl (m : Machine) : m.Extends m :=
  ⟨Nat.le_refl _, fun _ _ => rfl, [], (List.append_nil _).symm⟩

theorem Extends.trans (h : m.Extends n) (h' : n.Extends z) : m.Extends z := by
  obtain ⟨events, hlog⟩ := h.log
  obtain ⟨events', hlog'⟩ := h'.log
  refine ⟨Nat.le_trans h.cells h'.cells, fun a ha => ?_, events ++ events', ?_⟩
  · rw [h'.slots a (Nat.lt_of_lt_of_le ha h.cells), h.slots a ha]
  · rw [hlog', hlog, List.append_assoc]

/-- What is displaced leaves the cells from before alone. -/
theorem Displaced.extends {known : Option String} (h : Displaced base known f u) :
    base.Extends u := by
  obtain ⟨k, -, hsize⟩ := h.stores.size
  obtain ⟨events, hlog, -⟩ := h.log
  exact ⟨hsize ▸ Nat.le_add_right _ k, h.before, events, hlog⟩

/-- Events that correspond have the same texts. -/
theorem texts_displaced {events events' : List Event}
    (h : List.Forall₂ (Event.Displaced base) events events') :
    Event.texts events' = Event.texts events := by
  induction h with
  | nil => rfl
  | cons hevents _ ih =>
    unfold Event.texts at ih ⊢
    cases hevents with
    | written _ text => exact congrArg (text :: ·) ih
    | prompted _ => exact ih
    | told traced traced' message => cases traced <;> cases traced' <;> exact ih

/-- What was written keeps its value in all later states. -/
theorem Repeats.reveal (h : Repeats base f u) (hz : u.Extends z) {a b : Operand}
    (hoperands : base.fork.Operands a b) (hmade : f.store.Made a) :
    z.store.reveal b = f.store.reveal a := by
  rw [← h.displaced.reveal_eq hoperands]
  cases hoperands with
  | value v => rfl
  | @cell i j hcells =>
    obtain ⟨k, hsize, hsize'⟩ := h.displaced.stores.size
    have hlt : j < u.store.cells.size := (h.displaced.stores.lt_iff hcells).mpr hmade
    exact congrArg Value.array (hz.slots j hlt)

/-- The operands written on the used machine keep the values of those on the new one. -/
theorem Repeats.operands (h : Repeats base f u) (hz : u.Extends z) {events events' : List Event}
    (hall : List.Forall₂ (Event.Displaced base) events events')
    (hmade : ∀ operand text, .written operand text ∈ events → f.store.Made operand) :
    (Event.operands events').map z.store.reveal =
      (Event.operands events).map f.store.reveal := by
  induction hall with
  | nil => rfl
  | cons hevents _ ih =>
    have hrest := ih fun operand text hmem => hmade operand text (List.mem_cons_of_mem _ hmem)
    unfold Event.operands at hrest ⊢
    cases hevents with
    | written operands text =>
      have hvalue := h.reveal hz operands (hmade _ text (List.mem_cons_self ..))
      simp only [List.filterMap_cons, List.map_cons, hvalue, hrest]
    | prompted _ => exact hrest
    | told traced traced' message => cases traced <;> cases traced' <;> exact hrest

/-- What can be seen of a computation on a used machine, and of what follows. -/
theorem Repeats.transcript (h : Repeats base f u) (hz : u.Extends z)
    (outcome outcome' : Except Halt Unit) :
    z.transcript base.log.size outcome =
      (f.transcript 0 outcome').followedBy (z.transcript u.log.size outcome) := by
  obtain ⟨events, hlog, hall⟩ := h.displaced.log
  obtain ⟨events', hlog'⟩ := hz.log
  have hbase : z.log.toList.drop base.log.size = events ++ events' := by
    rw [hlog', hlog, List.append_assoc, ← Array.length_toList, List.drop_left]
  have hu : z.log.toList.drop u.log.size = events' := by
    rw [hlog', ← Array.length_toList, List.drop_left]
  have houtputs : ∀ m : Machine, ∀ start,
      m.outputsFrom start = Event.operands (m.log.toList.drop start) := fun _ _ => rfl
  unfold Machine.transcript Transcript.followedBy
  simp only [houtputs, hbase, hu, List.drop_zero, Transcript.mk.injEq, true_and, and_true]
  refine ⟨?_, ?_⟩
  · rw [← texts_displaced hall]
    exact List.filterMap_append
  · rw [← h.operands hz hall h.made, ← List.map_append]
    exact congrArg _ List.filterMap_append

/-- What can be seen of a computation on a used machine is what can be seen of it on a new
one. -/
theorem Repeats.transcript_eq (h : Repeats base f u) (outcome : Except Halt Unit) :
    u.transcript base.log.size outcome = f.transcript 0 outcome := by
  have hanswers : u.answers = f.answers := by rw [h.displaced.rest]
  rw [h.transcript (.refl u) outcome outcome]
  have hnothing : u.log.toList.drop u.log.size = [] := by
    rw [← Array.length_toList, List.drop_length]
  unfold Machine.transcript Transcript.followedBy outputsFrom
  simp [hnothing, hanswers, Event.texts]

end Machine

/-! ## Modules -/

variable {p : Program} {c : Chart}

/-- A module does on a used machine what it does on a new one. -/
theorem alongside_root (hlayout : Layout p c) (hregular : p.forest.Regular) {root : Nat}
    (hroot : root ∈ p.forest.roots) {base m n : Machine} (h : Displaced base none m n) :
    ∀ depth, Alongside base none Eq ((Level.running p depth).execute root m)
      ((Level.running p depth).execute root n)
  | 0 => .fault _ h
  | depth + 1 => by
    obtain ⟨node, number, d, hnode, hop, hd, hrows⟩ :=
      Program.row_root hlayout hregular hroot
    have hσ := lawful_displacement base (some d.name)
    have hbody := (Level.corresponds_running hσ (scoped_displacement base hd) hlayout hregular
      depth).executeAll hσ hrows
    have hmodule : (displacement base none).Runs Eq (within none d.name Variables.empty
          fun scope => do
        modify fun m => m.recordModule d.name scope
        (Level.running p depth).executeAll (p.forest.children root))
        (within none d.name Variables.empty fun scope => do
        modify fun m => m.recordModule d.name scope
        (Level.running p depth).executeAll (p.forest.children root)) := fun m n h =>
      (alongside_within h none d.name Fork.tables_empty Variables.holding_nil
        fun hentered => hbody _ _ (hentered.record d.name _)).forget
    have hnone := lawful_displacement base none
    show Alongside base none Eq (Level.executeNode p (Level.running p depth) root m)
      (Level.executeNode p (Level.running p depth) root n)
    rw [Level.executeNode_module _ hnode hop]
    exact hnone.next hnone.ticks
      (fun _ => hnone.next (hnone.tracesDepth _ (by decide)) fun _ => hmodule) m n h

/-- A module that starts on a new machine spares the arrays, leaves no scope open, and
does not end by giving something back. -/
theorem root_fresh (hlayout : Layout p c) (hanchored : Anchored p c)
    (hregular : p.forest.Regular) {root : Nat} (hroot : root ∈ p.forest.roots) (m : Machine) :
    (∀ operand text, .written operand text ∈
        ((p.level.execute root).final m.renewed).log.toList →
      ((p.level.execute root).final m.renewed).store.Made operand) ∧
    (p.level.execute root).Unwinds m.renewed ∧
    ∀ halt n, p.level.execute root m.renewed = .error halt n →
      halt.Allowed False n.refused := by
  have htidy := tidy_fresh m.answers m.interactive m.verbosity m.ticks
  have howned := owned_fresh p m.answers m.interactive m.verbosity m.ticks
  refine ⟨?_, ?_, ?_⟩
  · have hspared := ((Level.spares_running p levelLimit).execute _ root howned).final
    obtain ⟨events, hlog, hevents⟩ := hspared.log
    intro operand text hmem
    have hmem' : .written operand text ∈
        ((p.level.execute root).final m.renewed).log.toList := hmem
    rw [show ((p.level.execute root).final m.renewed).log.toList = events from hlog] at hmem'
    exact (hevents operand text hmem').1
  · exact ((steady_running p levelLimit).execute root).unwinds htidy
  · exact (Level.proper_running hlayout hanchored hregular levelLimit).starts (w := {}) rfl hroot
      _ (World.describes_fresh m.answers m.interactive m.verbosity m.ticks)

/-- A module that runs while no scope is open repeats what it does on a new machine. -/
inductive Exec.Repeated (base : Machine) :
    EStateM.Result Halt Machine Unit → EStateM.Result Halt Machine Unit → Prop where
  | ok {f u} (repeats : base.Repeats f u) (none : u.frames = []) :
      Repeated base (.ok () f) (.ok () u)
  | error (halt) {f u} (repeats : base.Repeats f u)
      (none : halt ≠ .suspended → u.frames = []) :
      Repeated base (.error halt f) (.error halt u)

/-- A module that starts while no scope is open is repeated. -/
theorem repeated_root (hlayout : Layout p c) (hanchored : Anchored p c)
    (hregular : p.forest.Regular) {root : Nat} (hroot : root ∈ p.forest.roots) {m : Machine}
    (hnone : m.frames = []) :
    Repeated m (p.level.execute root m.renewed) (p.level.execute root m) := by
  obtain ⟨hmade, hunwinds, hallowed⟩ := root_fresh hlayout hanchored hregular hroot m
  have halong : Alongside m none Eq (p.level.execute root m.renewed) (p.level.execute root m) :=
    alongside_root hlayout hregular hroot (.start hnone) levelLimit
  have hframes : ∀ {f u : Machine}, Displaced m none f u → f.frames = [] → u.frames = [] :=
    fun h hf => by rw [h.frames, hf]; rfl
  unfold Exec.Unwinds at hunwinds
  unfold Exec.final at hmade
  generalize p.level.execute root m.renewed = r at halong hmade hunwinds hallowed
  generalize p.level.execute root m = r' at halong
  cases halong with
  | ok _ displaced => exact .ok ⟨displaced, hmade⟩ (hframes displaced hunwinds.1)
  | fault _ displaced =>
    exact .error _ ⟨displaced, hmade⟩ fun _ => hframes displaced hunwinds.1
  | returned _ _ => exact (hallowed _ _ rfl).elim
  | suspended displaced => exact .error _ ⟨displaced, hmade⟩ fun hne => absurd rfl hne

/-- The outline is traced as on a new machine, and nothing is written. -/
theorem repeated_outline (p : Program) {m : Machine} (hnone : m.frames = []) :
    Repeated m (p.traceOutline m.renewed) (p.traceOutline m) := by
  have hσ := lawful_displacement m none
  have halong : Alongside m none Eq (p.traceOutline m.renewed) (p.traceOutline m) := by
    have hstart := Displaced.start hnone
    unfold Program.traceOutline
    rw [get_bind_apply, get_bind_apply]
    show Alongside m none Eq ((if 1 ≤ m.verbosity then _ else _ : Exec Unit) _)
      ((if 1 ≤ m.verbosity then _ else _ : Exec Unit) _)
    split
    · exact Level.runs_outline hσ p _ _ hstart
    · exact .ok rfl hstart
  have hcalm := calm_traceOutline p m.renewed
  have hhalts := halts_traceOutline (Halt.lenient_allowed False) p m.renewed
  obtain ⟨-, hframes, -, events, hlog, hnothing⟩ := hcalm
  unfold Exec.final at hframes hlog
  generalize p.traceOutline m.renewed = r at halong hframes hlog hhalts
  generalize p.traceOutline m = r' at halong
  have hrepeats : ∀ {f u : Machine}, Displaced m none f u → f.log.toList = events →
      m.Repeats f u := fun displaced hlog =>
    ⟨displaced, fun operand text hmem => absurd (hlog ▸ hmem) (hnothing operand text)⟩
  have hopen : ∀ {f u : Machine}, Displaced m none f u → f.frames = [] → u.frames = [] :=
    fun h hf => by rw [h.frames, hf]; rfl
  cases halong with
  | ok _ displaced => exact .ok (hrepeats displaced hlog) (hopen displaced hframes)
  | fault _ displaced =>
    exact .error _ (hrepeats displaced hlog) fun _ => hopen displaced hframes
  | returned _ _ => exact (hhalts _ _ rfl).elim
  | suspended displaced => exact .error _ (hrepeats displaced hlog) fun hne => absurd rfl hne

/-- What can be seen of a computation that starts in a state. -/
def Exec.transcript (x : Exec Unit) (m : Machine) : Transcript :=
  match x m with
  | .ok () n => n.transcript m.log.size (.ok ())
  | .error halt n => n.transcript m.log.size (.error halt)

/-- A computation keeps what was there before, and leaves no scope open when it ends. -/
def Exec.Closes (x : Exec Unit) (m : Machine) : Prop :=
  match x m with
  | .ok () n => m.Extends n ∧ n.frames = []
  | .error halt n => m.Extends n ∧ (halt ≠ .suspended → n.frames = [])

/-- What follows on a computation that is repeated. -/
theorem Exec.Repeated.bind {x y : Exec Unit} {m : Machine} {rest : Machine → Transcript}
    (hx : Repeated m (x m.renewed) (x m))
    (hy : ∀ f u, m.Repeats f u → u.frames = [] → y.transcript u = rest f ∧ y.Closes u) :
    (x >>= fun _ => y).transcript m = (match x m.renewed with
      | .ok () n => (n.transcript 0 (.ok ())).followedBy (rest n)
      | .error halt n => n.transcript 0 (.error halt)) ∧
    (x >>= fun _ => y).Closes m := by
  unfold Exec.transcript Exec.Closes
  rw [bind_apply]
  generalize x m.renewed = r at hx
  generalize x m = r' at hx
  cases hx with
  | error halt repeats none =>
    exact ⟨repeats.transcript_eq _, repeats.displaced.extends, none⟩
  | @ok f u repeats none =>
    obtain ⟨hseen, hcloses⟩ := hy f u repeats none
    unfold Exec.transcript at hseen
    unfold Exec.Closes at hcloses
    dsimp only
    rw [← hseen]
    cases hrun : y u with
    | ok _ z =>
      rw [hrun] at hcloses
      obtain ⟨hextends, hopen⟩ := hcloses
      exact ⟨repeats.transcript hextends _ _, repeats.displaced.extends.trans hextends, hopen⟩
    | error halt z =>
      rw [hrun] at hcloses
      obtain ⟨hextends, hopen⟩ := hcloses
      exact ⟨repeats.transcript hextends _ _, repeats.displaced.extends.trans hextends, hopen⟩

/-- Modules that run one after the other on one machine. -/
theorem each_apart (hlayout : Layout p c) (hanchored : Anchored p c)
    (hregular : p.forest.Regular) {roots : List Nat}
    (hroots : ∀ root ∈ roots, root ∈ p.forest.roots) {m : Machine} (hnone : m.frames = []) :
    Exec.transcript (roots.forM p.level.execute) m = p.eachApart roots m ∧
      Exec.Closes (roots.forM p.level.execute) m := by
  induction roots generalizing m with
  | nil =>
    have hnothing : m.log.toList.drop m.log.size = [] := by
      rw [← Array.length_toList, List.drop_length]
    refine ⟨?_, .refl m, hnone⟩
    show m.transcript m.log.size (.ok ()) = ⟨.ok (), [], [], m.answers⟩
    unfold Machine.transcript outputsFrom
    simp [hnothing, Event.texts]
  | cons root roots ih =>
    obtain ⟨hroot, hrest⟩ := List.forall_mem_cons.mp hroots
    refine (repeated_root hlayout hanchored hregular hroot hnone).bind fun f u repeats hopen => ?_
    obtain ⟨hseen, hcloses⟩ := ih hrest hopen
    exact ⟨hseen.trans (p.eachApart_congr roots repeats.displaced.renewed_eq), hcloses⟩

/-! ## Runs -/

/-- Where nothing was written there is nothing to be seen. -/
theorem transcript_silent {f : Machine}
    (h : ∀ operand text, .written operand text ∉ f.log.toList) (t : Transcript) :
    (f.transcript 0 (.ok ())).followedBy t = t := by
  have hnothing : ∀ {α : Type} (g : Event → Option α),
      (∀ event, (∀ operand text, event ≠ .written operand text) → g event = none) →
      f.log.toList.filterMap g = [] := fun g hg =>
    List.filterMap_eq_nil_iff.mpr fun event hmem => hg event fun operand text heq =>
      h operand text (heq ▸ hmem)
  have htexts : Event.texts f.log.toList = [] := hnothing _ fun event hne => by
    cases event with
    | written operand text => exact absurd rfl (hne operand text)
    | _ => rfl
  have houtputs : f.outputsFrom 0 = [] := hnothing _ fun event hne => by
    cases event with
    | written operand text => exact absurd rfl (hne operand text)
    | _ => rfl
  unfold Transcript.followedBy Machine.transcript
  rw [houtputs, List.drop_zero, htexts]
  rfl

/-- Closing the trace changes nothing that can be seen of the end. -/
theorem transcript_closeTrace (x : Exec Unit) (m : Machine) :
    Exec.transcript (x.andThenTidy Machine.closeTrace) m = Exec.transcript x m := by
  unfold Exec.transcript Exec.andThenTidy
  cases x m with
  | ok _ n => rfl
  | error halt n => cases halt <;> rfl

/-- Closing the trace opens no scope. -/
theorem Exec.Closes.closeTrace {x : Exec Unit} {m : Machine} (h : x.Closes m) :
    Exec.Closes (x.andThenTidy Machine.closeTrace) m := by
  have hextends : ∀ {n : Machine}, m.Extends n → m.Extends n.closeTrace :=
    fun h => ⟨h.cells, h.slots, h.log⟩
  unfold Exec.Closes Exec.andThenTidy at *
  cases hrun : x m with
  | ok _ n =>
    rw [hrun] at h
    exact ⟨hextends h.1, h.2⟩
  | error halt n =>
    rw [hrun] at h
    cases halt with
    | suspended => exact h
    | fault _ | returned _ => exact ⟨hextends h.1, h.2⟩

/-- A run that starts while no scope is open. -/
theorem Program.run_apart {tokens : List Token} {p : Program}
    (hp : Program.ofTokens tokens = .ok p) {m : Machine} (hnone : m.frames = []) :
    p.transcript m = p.apart m ∧ p.run.Closes m := by
  obtain ⟨c, hlayout, hanchored⟩ := ofTokens_layout hp
  have hregular := regular_of_ofTokens hp
  have hseen : p.transcript m = p.run.transcript m := by
    unfold Program.transcript Exec.transcript runOn
    cases p.run m <;> rfl
  have hmodules : ∀ f u, m.Repeats f u → u.frames = [] →
      Exec.transcript ((p.forest.roots.forM p.level.execute).andThenTidy Machine.closeTrace) u =
        p.eachApart p.forest.roots f ∧
      Exec.Closes ((p.forest.roots.forM p.level.execute).andThenTidy Machine.closeTrace) u := by
    intro f u repeats hopen
    obtain ⟨hseen, hcloses⟩ :=
      each_apart hlayout hanchored hregular (fun _ hroot => hroot) hopen
    refine ⟨?_, hcloses.closeTrace⟩
    rw [transcript_closeTrace, hseen]
    exact p.eachApart_congr p.forest.roots repeats.displaced.renewed_eq
  obtain ⟨happart, hcloses⟩ := (repeated_outline p hnone).bind hmodules
  refine ⟨(hseen.trans happart).trans ?_, hcloses⟩
  obtain ⟨-, -, -, events, hlog, hnothing⟩ := calm_traceOutline p m.renewed
  unfold Exec.final at hlog
  unfold Program.apart
  cases hrun : p.traceOutline m.renewed with
  | error halt f => rfl
  | ok _ f =>
    rw [hrun] at hlog
    have hlog' : f.log.toList = events := hlog
    exact transcript_silent (fun operand text hmem => hnothing operand text (hlog' ▸ hmem)) _

/-- Modules do not influence each other, neither those of one run nor those of several
runs on one machine.  A run of a built program, from any state in which no scope is open,
shows just what can be seen if its modules run one after the other, each on a new machine
that has only the answers and ticks that are left, until one of them fails: the same
outputs in the same order, the same end, and the same unread answers.  So it shows what a
run on a new machine shows.  However it ends, it leaves no scope open, and a run of any
built program on the machine that it leaves shows what a run on a new machine shows. -/
theorem activations_apart {tokens : List Token} {p : Program}
    (hp : Program.ofTokens tokens = .ok p) {m : Machine} (hnone : m.frames = []) :
    p.transcript m = p.apart m ∧ p.transcript m = p.transcript m.renewed ∧
      ((p.runOn m).1 ≠ .error .suspended → (p.runOn m).2.frames = [] ∧
        ∀ tokens' p', Program.ofTokens tokens' = .ok p' → ∀ ticks,
          p'.transcript { (p.runOn m).2 with ticks } =
            p'.transcript { (p.runOn m).2.renewed with ticks }) := by
  have hrenewed : ∀ {tokens p} {m : Machine}, Program.ofTokens tokens = .ok p →
      m.frames = [] → p.transcript m = p.transcript m.renewed := by
    intro tokens p m hp hnone
    rw [(Program.run_apart hp hnone).1, (Program.run_apart hp (m := m.renewed) rfl).1]
    rfl
  obtain ⟨hapart, hcloses⟩ := Program.run_apart hp hnone
  refine ⟨hapart, hrenewed hp hnone, fun hended => ?_⟩
  have hopen : (p.runOn m).2.frames = [] := by
    unfold Exec.Closes at hcloses
    unfold Program.runOn at hended ⊢
    cases hrun : p.run m with
    | ok _ n =>
      rw [hrun] at hcloses
      exact hcloses.2
    | error halt n =>
      rw [hrun] at hcloses hended
      exact hcloses.2 fun heq => hended (congrArg Except.error heq)
  exact ⟨hopen, fun tokens' p' hp' ticks =>
    hrenewed (m := { (p.runOn m).2 with ticks }) hp' hopen⟩

/-- The tokens of a program with two modules of the same name, each with an `x` and a
function of its own.  The second one fails in its function:

    module m; variable - integer x := 1;
    function f() : integer return x; end f.
    begin output f();
    module m; variable - integer x := 0;
    function f() : integer return 1 / x; end f.
    begin output x; output f(); end. -/
def namesakes : List Token :=
  let word text : Token := { kind := .word, text }
  let number text : Token := { kind := .number, text }
  let header value : List Token := [.ofKind .moduleWord, word "m", .ofKind .semicolon,
    .ofKind .variableWord, .ofKind .minus, word "integer", word "x",
    .ofKind .assign, number value, .ofKind .semicolon,
    .ofKind .functionWord, word "f", .ofKind .leftParen, .ofKind .rightParen,
    .ofKind .colon, word "integer", .ofKind .returnWord]
  let footer : List Token := [word "x", .ofKind .semicolon, .ofKind .endWord, word "f",
    .ofKind .dot, .ofKind .beginWord]
  let call : List Token := [.ofKind .outputWord, word "f", .ofKind .leftParen,
    .ofKind .rightParen, .ofKind .semicolon]
  header "1" ++ footer ++ call ++ header "0" ++ [number "1", .ofKind .divide] ++ footer ++
    [.ofKind .outputWord, word "x", .ofKind .semicolon] ++ call ++
    [.ofKind .endWord, .ofKind .dot, .ending]

/-- The second module fails behind the outputs of both.  A run on the machine that is left
shows the same outputs again. -/
theorem activations_apart_namesakes : ∃ p m fault, Program.ofTokens namesakes = .ok p ∧
    p.runOn { ticks := 200 } = (.error (.fault fault), m) ∧
    (p.apart { ticks := 200 }).printed = ["1", "0"] ∧
    (p.transcript { m with ticks := 200 }).printed = ["1", "0"] := by
  obtain ⟨p, hp, hruns⟩ := Program.exists_ofTokens (fun p =>
    Program.faulted (fun _ m =>
      (m.answers, m.interactive, m.verbosity) = ([], false, 0) &&
        (p.transcript { ticks := 200 }).printed = ["1", "0"]) (p.runOn { ticks := 200 }))
    (by decide +kernel : (Program.ofTokens namesakes).toOption.any _ = true)
  obtain ⟨fault, m, hrun, hholds⟩ := Program.exists_of_faulted hruns
  obtain ⟨hapart, -, hagain⟩ := activations_apart hp (m := { ticks := 200 }) rfl
  rw [hrun] at hagain
  obtain ⟨hkept, hprinted⟩ := Bool.and_eq_true_iff.mp hholds
  obtain ⟨hanswers, hinteractive, hverbosity⟩ :
      m.answers = [] ∧ m.interactive = false ∧ m.verbosity = 0 := by simpa using hkept
  have hnew : { m.renewed with ticks := 200 } = ({ ticks := 200 } : Machine) := by
    unfold Machine.renewed
    rw [hanswers, hinteractive, hverbosity]
  have hsame := (hagain (by simp)).2 namesakes p hp 200
  rw [hnew] at hsame
  have hprinted' := decide_eq_true_eq.mp hprinted
  exact ⟨p, m, fault, hp, hrun, hapart ▸ hprinted', hsame ▸ hprinted'⟩

end Pseudocode
