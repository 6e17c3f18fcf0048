import Pseudocode.Proofs.Beside
import Pseudocode.Proofs.Outputs

/-!
# What a run does not depend on

Every module of a built program runs beside itself, and so does a whole run, up to one
point: the outline that is traced first gives up on what is nested too deeply, and a run
that traces nothing does not even make it (`together_run`).

From this it can be read off that the verbosity matters only for the trace
(`verbosity_irrelevant`), and that answers that are not asked for do not matter at all
(`unread_irrelevant`).

Both are read off the states that two runs end in.  Without messages the logs are the same
(`Beside.untraced_eq`), and of the messages one log has a part of the other
(`Beside.traceMessages_sublist`).  If the verbosities are the same and only the answers
differ, so are the logs (`Beside.eq_of_verbosity`).

If the answers of the first run do not suffice, it ends for want of one and the second goes
on.  What the first had written by then stays the beginning of what the second writes; that
is all that can be said, and all that has to be.
-/

namespace Pseudocode

open Exec Machine

/-! ## What the states have in common -/

namespace Machine.Beside

variable {d : Contrast} {m n : Machine}

/-- Machines that start with the same answers, save that one may have more. -/
theorem fresh (answers more : List String) (interactive : Bool)
    (verbosity verbosity' ticks : Nat) (h : more = [] ∨ interactive = false) :
    Beside ⟨verbosity, verbosity', more⟩ { answers, interactive, verbosity, ticks }
      { answers := answers ++ more, interactive, verbosity := verbosity', ticks } := by
  refine ⟨rfl, rfl, h, ⟨[], nofun, rfl, rfl⟩, fun _ => Variables.holding_nil, fun a => ?_⟩
  show (Value.array ((#[] : Array (List (Option Value))).getD a [])).Ordinary
  exact nofun

/-- With the same answers the states are the same, the messages apart. -/
theorem untraced_eq (h : Beside d m n) (hmore : d.more = []) : n.untraced = m.untraced := by
  obtain ⟨full, hlevelled, hm, hn⟩ := h.logs
  unfold untraced
  rw [hm, hn, Event.filter_upTo hlevelled, Event.filter_upTo hlevelled, h.rest, hmore,
    List.append_nil]

/-- With the same verbosity they are the same, the answers apart. -/
theorem eq_of_verbosity (h : Beside d m n) (hsame : d.verbosity' = d.verbosity) :
    n = { m with answers := m.answers ++ d.more } := by
  obtain ⟨full, -, hm, hn⟩ := h.logs
  have hlog : n.log = m.log := by
    apply Array.toList_inj.mp
    rw [hm, hn, hsame]
  rw [h.rest, hlog, hsame, ← h.verbosity]

/-- What the first one traces is traced by the second one, too, if that traces more. -/
theorem traceMessages_sublist (h : Beside d m n) (hle : d.verbosity ≤ d.verbosity') :
    m.traceMessages.Sublist n.traceMessages := by
  obtain ⟨full, -, hm, hn⟩ := h.logs
  unfold traceMessages
  rw [hm, hn]
  exact (Event.upTo_sublist hle).filterMap _

/-- At verbosity zero nothing is traced. -/
theorem traceMessages_nil (h : Beside d m n) (hzero : d.verbosity = 0) :
    m.traceMessages = [] := by
  obtain ⟨full, hlevelled, hm, -⟩ := h.logs
  unfold traceMessages
  rw [hm, hzero]
  refine List.filterMap_eq_nil_iff.mpr fun event hmem => ?_
  obtain ⟨⟨level, event'⟩, hseen, heq⟩ := List.mem_map.mp hmem
  subst heq
  obtain ⟨hfull, hlevel⟩ := List.mem_filter.mp hseen
  have hmessage := (hlevelled _ hfull).mp (Nat.le_zero.mp (decide_eq_true_eq.mp hlevel))
  cases event' with
  | traced _ => cases hmessage
  | _ => rfl

end Machine.Beside

/-! ## Whole runs beside each other -/

section

variable {p : Program} {c : Chart}

theorem beside_root (hlayout : Layout p c) (hregular : p.forest.Regular) {root : Nat}
    (hroot : root ∈ p.forest.roots) : ∀ depth,
    let level := Level.running p depth
    beside.Runs Eq (level.execute root) (level.execute root)
  | 0 => lawful_beside.fails trivial
  | depth + 1 => by
    have hσ := lawful_beside
    obtain ⟨node, number, module, hnode, hop, -, hrows⟩ :=
      Program.row_root hlayout hregular hroot
    have hbody := (Level.corresponds_running hσ (scoped_beside p number) hlayout hregular
      depth).executeAll hσ hrows
    show beside.Runs Eq (Level.executeNode p (Level.running p depth) root)
      (Level.executeNode p (Level.running p depth) root)
    rw [Level.executeNode_module _ hnode hop]
    refine hσ.next hσ.ticks fun _ => hσ.next (hσ.tracesDepth _ (by decide)) fun _ => ?_
    refine beside_within none module.name Variables.holding_nil fun scope => ?_
    have hrecord : beside.Runs Eq
        (modify fun m => m.recordModule module.name scope : Exec Unit)
        (modify fun m => m.recordModule module.name scope) :=
      fun _ _ _ h => ⟨List.prefix_rfl, .inl (.ok rfl (h.record module.name scope))⟩
    exact hσ.next hrecord fun _ => hbody

/-- The modules of a program, and the trace that is closed behind them. -/
def Program.modulesRun (p : Program) : Exec Unit :=
  (p.forest.roots.forM p.level.execute).andThenTidy closeTrace

/-- The modules of a program, one after the other, beside themselves. -/
theorem beside_modulesRun (hlayout : Layout p c) (hregular : p.forest.Regular) :
    beside.Runs Eq p.modulesRun p.modulesRun := by
  have heach : ∀ roots : List Nat, (∀ root ∈ roots, root ∈ p.forest.roots) →
      beside.Runs Eq (roots.forM p.level.execute) (roots.forM p.level.execute) := by
    intro roots
    induction roots with
    | nil => exact fun _ => lawful_beside.gives rfl
    | cons root roots ih =>
      intro hroots
      obtain ⟨hroot, hrest⟩ := List.forall_mem_cons.mp hroots
      exact lawful_beside.next (beside_root hlayout hregular hroot levelLimit)
        fun _ => ih hrest
  exact beside_andThenTidy (heach _ fun _ hroot => hroot) (fun _ => rfl) (fun _ => rfl)
    fun _ _ _ => Beside.close

/-- A run that traces nothing makes no outline. -/
theorem Program.run_of_silent (p : Program) {m : Machine} (h : m.verbosity = 0) :
    p.run m = p.modulesRun m := by
  unfold Program.run Program.traceOutline
  rw [bind_apply, get_bind_apply, h]
  rfl

/-- A run that traces makes the outline first, and ends if it cannot. -/
theorem Program.run_of_tooDeep (p : Program) {m : Machine} (h : m.verbosity ≠ 0)
    {fault : Fault} (houtline : p.forest.outline = .error fault) :
    p.run m = .error (.fault fault) m := by
  have hpositive : 1 ≤ m.verbosity := Nat.one_le_iff_ne_zero.mpr h
  unfold Program.run Program.traceOutline
  rw [bind_apply, get_bind_apply, if_pos hpositive, houtline]
  rfl

/-- It makes no difference whether an outline is made at a verbosity that does not show it. -/
theorem Program.run_of_outline (p : Program) {lines : List String}
    (houtline : p.forest.outline = .ok lines) :
    p.run = (do
      lines.forM fun line => trace 1 fun _ => .ok ("tree " ++ line)
      p.modulesRun) := by
  funext m
  have hsilent : m.verbosity = 0 → ∀ lines : List String,
      (lines.forM fun line => trace 1 fun _ => .ok ("tree " ++ line) : Exec Unit) m =
        .ok () m := by
    intro hzero lines
    induction lines with
    | nil => rfl
    | cons line lines ih =>
      have htold : ∀ event, m.told 1 event = m := fun event =>
        if_neg (by rw [hzero]; decide)
      show (trace 1 _ >>= fun _ => _) m = _
      rw [bind_apply, trace_apply rfl, htold]
      exact ih
  by_cases hverbosity : m.verbosity = 0
  · rw [p.run_of_silent hverbosity, bind_apply, hsilent hverbosity]
  · have hpositive : 1 ≤ m.verbosity := Nat.one_le_iff_ne_zero.mpr hverbosity
    unfold Program.run Program.traceOutline
    rw [bind_apply, get_bind_apply, if_pos hpositive, houtline,
      bind_apply _ fun _ => p.modulesRun]
    rfl

/-- Whole runs beside each other, unless one of them makes an outline that is too deep, and
the other one makes none. -/
theorem together_run (hlayout : Layout p c) (hregular : p.forest.Regular) {d : Contrast}
    (houtline : (d.verbosity = 0 ↔ d.verbosity' = 0) ∨ p.forest.outline ≠ .error .tooDeep)
    {m n : Machine} (h : Beside d m n) : Together d n Eq (p.run m) (p.run n) := by
  have hmodules := beside_modulesRun hlayout hregular
  cases hlines : p.forest.outline with
  | error fault =>
    cases Forest.eq_tooDeep hlines
    have hboth := houtline.resolve_right (not_not_intro hlines)
    by_cases hzero : d.verbosity = 0
    · rw [p.run_of_silent (h.verbosity.trans hzero),
        p.run_of_silent (h.verbosity_eq.trans (hboth.mp hzero))]
      exact hmodules d m n h
    · rw [p.run_of_tooDeep (h.verbosity ▸ hzero) hlines,
        p.run_of_tooDeep (h.verbosity_eq ▸ mt hboth.mpr hzero) hlines]
      exact ⟨List.prefix_rfl, .inl (.fault _ nofun h)⟩
  | ok lines =>
    have hσ := lawful_beside
    have hlines' : beside.Runs Eq
        (lines.forM fun line => trace 1 fun _ => .ok ("tree " ++ line) : Exec Unit)
        (lines.forM fun line => trace 1 fun _ => .ok ("tree " ++ line)) := by
      clear hlines
      induction lines with
      | nil => exact hσ.gives rfl
      | cons line lines ih => exact hσ.next (hσ.tracesLine _ (by decide)) fun _ => ih
    rw [p.run_of_outline hlines]
    exact hσ.next hlines' (fun _ => hmodules) d m n h

end

/-- How a computation ended. -/
def Exec.outcome {α : Type} : EStateM.Result Halt Machine α → Except Halt α
  | .ok a _ => .ok a
  | .error halt _ => .error halt

theorem Program.runOn_eq (p : Program) (m : Machine) :
    p.runOn m = (outcome (p.run m), state (p.run m)) := by
  unfold runOn
  cases p.run m <;> rfl

theorem Exec.Accompanied.outcome_eq {d : Contrast} {r r' : EStateM.Result Halt Machine Unit}
    (h : Accompanied d Eq r r') : outcome r' = outcome r := by
  cases h with
  | ok _ _ | fault _ _ _ | suspended _ => rfl
  | returned results _ =>
    cases results with
    | none => rfl
    | some hsame =>
      cases hsame.1
      rfl

theorem Exec.Accompanied.beside {d : Contrast} {r r' : EStateM.Result Halt Machine Unit}
    (h : Accompanied d Eq r r') : Beside d (state r) (state r') := by
  cases h with
  | ok _ beside | fault _ _ beside | returned _ beside | suspended beside => exact beside

theorem Exec.Accompanied.confirms {d : Contrast} {r r' : EStateM.Result Halt Machine Unit}
    (h : Accompanied d Eq r r') {fault : Fault} (hfault : outcome r = .error (.fault fault)) :
    (state r).Confirms fault := by
  cases h with
  | fault _ confirms _ =>
    cases hfault
    exact confirms
  | _ => cases hfault

/-! ## Verbosity -/

/-- Tracing changes nothing but the trace.  Two runs of a built program with the same answers
but with different verbosities end the same way, and in the same state up to messages; the
limit on the outline apart, which only a run makes that traces something.  The less verbose
run traces a part of what the other one traces, in the same order, and a run of verbosity
zero traces nothing. -/
theorem verbosity_irrelevant {tokens : List Token} {p : Program}
    (hp : Program.ofTokens tokens = .ok p) (answers : List String) (interactive : Bool)
    (ticks verbosity verbosity' : Nat) :
    let run (verbosity : Nat) := p.runOn { answers, interactive, verbosity, ticks }
    ((verbosity = 0 ↔ verbosity' = 0) ∨ p.forest.outline ≠ .error .tooDeep →
      (run verbosity').1 = (run verbosity).1 ∧
        (run verbosity').2.untraced = (run verbosity).2.untraced) ∧
    (verbosity ≤ verbosity' →
      (run verbosity).2.traceMessages.Sublist (run verbosity').2.traceMessages) ∧
    (run 0).2.traceMessages = [] := by
  intro run
  obtain ⟨c, hlayout, -⟩ := Program.ofTokens_layout hp
  have hbeside : ∀ v v', (v = 0 ↔ v' = 0) ∨ p.forest.outline ≠ .error .tooDeep →
      (run v').1 = (run v).1 ∧ Beside ⟨v, v', []⟩ (run v).2 (run v').2 := by
    intro v v' houtline
    have hfresh := Beside.fresh answers [] interactive v v' ticks (.inl rfl)
    rw [List.append_nil] at hfresh
    have hends := (together_run hlayout (Program.regular_of_ofTokens hp) houtline hfresh).ends
    have haccompanied := hends.resolve_right fun hlost => hlost.1 rfl
    simp only [run, Program.runOn_eq]
    exact ⟨haccompanied.outcome_eq, haccompanied.beside⟩
  have hnone : (run 0).2.traceMessages = [] :=
    (hbeside 0 0 (.inl .rfl)).2.traceMessages_nil rfl
  refine ⟨fun houtline => ?_, fun hle => ?_, hnone⟩
  · obtain ⟨hends, hstates⟩ := hbeside verbosity verbosity' houtline
    exact ⟨hends, hstates.untraced_eq rfl⟩
  · by_cases hzero : verbosity = 0
    · rw [hzero, hnone]
      exact List.nil_sublist _
    · have hboth : verbosity = 0 ↔ verbosity' = 0 := by omega
      exact (hbeside verbosity verbosity' (.inl hboth)).2.traceMessages_sublist hle

/-- The tokens of a program that asks twice:

    module M; variable - integer x;
    begin input x; output x; input x; output x; end. -/
def asking : List Token :=
  let word text : Token := { kind := .word, text }
  let round : List Token := [.ofKind .inputWord, word "x", .ofKind .semicolon,
    .ofKind .outputWord, word "x", .ofKind .semicolon]
  [.ofKind .moduleWord, word "M", .ofKind .semicolon,
    .ofKind .variableWord, .ofKind .minus, word "integer", word "x", .ofKind .semicolon,
    .ofKind .beginWord] ++ round ++ round ++ [.ofKind .endWord, .ofKind .dot, .ending]

/-- Both runs end for want of an answer, and only one of them is traced. -/
theorem verbosity_irrelevant_asking : ∃ p m n fault, Program.ofTokens asking = .ok p ∧
    p.forest.outline ≠ .error .tooDeep ∧
    p.runOn { answers := ["1"], ticks := 20 } = (.error (.fault fault), m) ∧
    p.runOn { answers := ["1"], verbosity := 2, ticks := 20 } = (.error (.fault fault), n) ∧
    n.untraced = m.untraced ∧ m.traceMessages = [] ∧ n.traceMessages.length = 15 := by
  obtain ⟨p, hp, hholds⟩ := Program.exists_ofTokens (fun p =>
    p.forest.outline.toOption.isSome &&
    (Program.faulted (fun _ _ => true) (p.runOn { answers := ["1"], ticks := 20 }) &&
    (p.runOn { answers := ["1"], verbosity := 2, ticks := 20 }).2.traceMessages.length = 15))
    (by decide +kernel : (Program.ofTokens asking).toOption.any _ = true)
  simp only [Bool.and_eq_true, decide_eq_true_eq] at hholds
  obtain ⟨hlines, hrun, htraced⟩ := hholds
  have houtline : p.forest.outline ≠ .error .tooDeep := by
    intro hdeep
    rw [hdeep] at hlines
    cases hlines
  obtain ⟨fault, m, hrun, -⟩ := Program.exists_of_faulted hrun
  obtain ⟨hsame, -, hsilent⟩ := verbosity_irrelevant hp ["1"] false 20 0 2
  obtain ⟨hends, hstates⟩ := hsame (.inr houtline)
  dsimp only at hends hstates hsilent
  rw [hrun] at hends hstates hsilent
  generalize hrun' : p.runOn { answers := ["1"], verbosity := 2, ticks := 20 } = second
    at hends hstates htraced
  obtain ⟨_, n⟩ := second
  cases hends
  exact ⟨p, m, n, fault, hp, houtline, hrun, hrun', hstates, hsilent, htraced⟩

/-! ## Answers -/

/-- Answers that are not asked for do not matter.  If a run of a built program ends, and not
for want of an answer, then a run with more answers ends the same way and in the same
state, but for these answers, which are still there.  If it ends for want of an answer, all
answers were read, and what it wrote is what a run with more answers writes first. -/
theorem unread_irrelevant {tokens : List Token} {p : Program}
    (hp : Program.ofTokens tokens = .ok p) (answers more : List String)
    (verbosity ticks : Nat) :
    let short := p.runOn { answers, verbosity, ticks }
    let long := p.runOn { answers := answers ++ more, verbosity, ticks }
    (short.1 ≠ .error .suspended →
      (∀ name, short.1 ≠ .error (.fault (.execution (.noAnswer name)))) →
      long = (short.1, { short.2 with answers := short.2.answers ++ more })) ∧
    ∀ name, short.1 = .error (.fault (.execution (.noAnswer name))) →
      short.2.answers = [] ∧ short.2.printed <+: long.2.printed := by
  intro short long
  obtain ⟨c, hlayout, -⟩ := Program.ofTokens_layout hp
  have hfresh := Beside.fresh answers more false verbosity verbosity ticks (.inr rfl)
  have hends := (together_run hlayout (Program.regular_of_ofTokens hp) (.inl .rfl) hfresh).ends
  simp only [short, long, Program.runOn_eq]
  generalize p.run { answers, verbosity, ticks } = r at hends
  generalize p.run { answers := answers ++ more, verbosity, ticks } = r' at hends
  rcases hends with haccompanied | ⟨-, hlost⟩
  · have hbeside := haccompanied.beside
    refine ⟨fun _ _ => ?_, fun name hfault => ?_⟩
    · rw [haccompanied.outcome_eq, hbeside.eq_of_verbosity rfl]
    · exact ⟨haccompanied.confirms hfault name rfl, hbeside.printed_eq ▸ List.prefix_rfl⟩
  · cases hlost with
    | suspended answers printed => exact ⟨fun hended => absurd rfl hended, nofun⟩
    | fault name answers printed =>
      exact ⟨fun _ hother => absurd rfl (hother name), fun _ _ => ⟨answers, printed⟩⟩

/-- Whether a fault is that there is no answer for a variable. -/
def Fault.lacks (name : String) : Fault → Bool
  | .execution (.noAnswer other) => other = name
  | _ => false

theorem Fault.eq_of_lacks {name : String} {fault : Fault} (h : fault.lacks name = true) :
    fault = .execution (.noAnswer name) := by
  unfold Fault.lacks at h
  split at h
  · rw [decide_eq_true_eq.mp h]
  · cases h

/-- One answer is not enough, and what was written by then is written again if there are
three; two are enough, and the third one is left. -/
theorem unread_irrelevant_asking : ∃ p m n, Program.ofTokens asking = .ok p ∧
    p.runOn { answers := ["1"], ticks := 20 } =
      (.error (.fault (.execution (.noAnswer "x"))), m) ∧
    p.runOn { answers := ["1", "2", "3"], ticks := 20 } = (.ok (), n) ∧
    m.answers = [] ∧ m.printed = ["1"] ∧ n.answers = ["3"] ∧ m.printed <+: n.printed := by
  obtain ⟨p, hp, hholds⟩ := Program.exists_ofTokens (fun p =>
    Program.faulted (fun fault m => fault.lacks "x" && m.printed = ["1"])
      (p.runOn { answers := ["1"], ticks := 20 }) &&
    Program.finished (fun n => n.answers = [])
      (p.runOn { answers := ["1", "2"], ticks := 20 }))
    (by decide +kernel : (Program.ofTokens asking).toOption.any _ = true)
  obtain ⟨hlacks, hfinished⟩ := Bool.and_eq_true_iff.mp hholds
  obtain ⟨fault, m, hshort, hm⟩ := Program.exists_of_faulted hlacks
  obtain ⟨n, hlong, hn⟩ := Program.exists_of_finished hfinished
  obtain ⟨hfault, hprinted⟩ := Bool.and_eq_true_iff.mp hm
  cases Fault.eq_of_lacks hfault
  have hnone := (unread_irrelevant hp ["1"] ["2", "3"] 0 20).2 "x" (by rw [hshort])
  have hmore := (unread_irrelevant hp ["1", "2"] ["3"] 0 20).1 (by simp [hlong])
    (by simp [hlong])
  rw [hshort] at hnone
  rw [hlong] at hmore
  obtain ⟨hread, hbegins⟩ : m.answers = [] ∧
      m.printed <+: (p.runOn { answers := ["1", "2", "3"], ticks := 20 }).2.printed := hnone
  have hended : p.runOn { answers := ["1", "2", "3"], ticks := 20 } =
      (.ok (), { n with answers := n.answers ++ ["3"] }) := hmore
  rw [decide_eq_true_eq.mp hn] at hended
  rw [hended] at hbegins
  exact ⟨p, m, _, hp, hshort, hended, hread, decide_eq_true_eq.mp hprinted, rfl, hbegins⟩

end Pseudocode
