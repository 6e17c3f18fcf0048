import Pseudocode.Proofs.Ownership.Interpreter

/-!
# Outputs now and later

An output statement writes an operand.  Its text can be taken at that moment, as a
console does, or when the run is over, from a list of the operands written.  The two are
the same for every value, and for every array that no variable holds; but the array of a
variable may be written into in the meantime (`outputs_differ`).

Which arrays no variable holds can be told from the statements.  A call gives back an array
of its own, and the only other expression that has an array is a variable.  So an operand
that was written may be a variable's array only if an output statement names one
(`Program.Exposes`); all other arrays that were written are in cells that nothing is written
to afterwards.
-/

namespace Pseudocode

open Exec Machine

/-- The operands written and their texts come from the same events. -/
theorem forall₂_written {related : Operand → String → Prop} : ∀ {events : List Event},
    (∀ operand text, .written operand text ∈ events → related operand text) →
    List.Forall₂ related
      (events.filterMap fun
        | .written operand _ => some operand
        | _ => none)
      (events.filterMap fun
        | .written _ text => some text
        | _ => none)
  | [], _ => .nil
  | event :: events, h => by
    have hrest := forall₂_written fun operand text hmem =>
      h operand text (List.mem_cons_of_mem _ hmem)
    cases event with
    | written operand text => exact .cons (h operand text (List.mem_cons_self ..)) hrest
    | prompted _ | traced _ | noticed _ => exact hrest

/-- What is written stays as it was printed.  When a run is over, or has been suspended,
every operand that was written has the text that was printed for it, unless it is an
array and the program writes arrays of variables.  So if it does not, the operands written
have just the texts that were printed. -/
theorem outputs_printed (p : Program) (answers : List String) (interactive : Bool)
    (verbosity ticks : Nat) :
    let m := (p.runOn { answers, interactive, verbosity, ticks }).2
    List.Forall₂ (fun operand text => ¬ p.Exposes operand → m.textOf operand = .ok text)
      m.outputs m.printed ∧
    (¬ p.WritesArrays → m.outputs.map m.textOf = m.printed.map .ok) := by
  intro m
  have hm : m = p.run.final { answers, interactive, verbosity, ticks } :=
    p.stateAfter_eq answers interactive verbosity ticks
  have hspared := (sparing_run p (owned_fresh p answers interactive verbosity ticks)).final
  rw [← hm] at hspared
  obtain ⟨events, hlog, hevents⟩ := hspared.log
  have hevents' : m.log.toList = events := hlog
  have hall : List.Forall₂
      (fun operand text => ¬ p.Exposes operand → m.textOf operand = .ok text)
      m.outputs m.printed := by
    unfold Machine.outputs outputsFrom printed
    rw [List.drop_zero, hevents']
    exact forall₂_written fun operand text hmem hno => ((hevents operand text hmem).2 hno).text
  refine ⟨hall, fun hno => ?_⟩
  generalize m.outputs = outputs at hall ⊢
  generalize m.printed = printed at hall ⊢
  induction hall with
  | nil => rfl
  | cons htext _ ih => rw [List.map_cons, List.map_cons, htext fun h => hno h.1, ih]

/-- A program that writes arrays of variables has a statement that does. -/
theorem Program.not_writesArrays {p : Program}
    (h : ∀ (index : Nat) (node : Node Operator) (target : Occurrence),
      p.forest.nodes[index]? = some node → node.operator ≠ .output (.read target)) :
    ¬ p.WritesArrays := by
  rintro ⟨index, node, target, hnode, hoperator, -⟩
  exact h index node target hnode hoperator

/-- The tokens of a program that writes what a call gives back:

    module M; variable - integer[1] x;
    function f(integer[1] a) : integer[1]
      return a;
    end f.
    begin output f(x); let x[0] := 5; end. -/
def echoing : List Token :=
  let word text : Token := { kind := .word, text }
  let number text : Token := { kind := .number, text }
  [.ofKind .moduleWord, word "M", .ofKind .semicolon,
    .ofKind .variableWord, .ofKind .minus, word "integer", .ofKind .leftBracket,
    number "1", .ofKind .rightBracket, word "x", .ofKind .semicolon,
    .ofKind .functionWord, word "f", .ofKind .leftParen, word "integer",
    .ofKind .leftBracket, number "1", .ofKind .rightBracket, word "a",
    .ofKind .rightParen, .ofKind .colon, word "integer", .ofKind .leftBracket,
    number "1", .ofKind .rightBracket,
    .ofKind .returnWord, word "a", .ofKind .semicolon,
    .ofKind .endWord, word "f", .ofKind .dot,
    .ofKind .beginWord, .ofKind .outputWord, word "f", .ofKind .leftParen, word "x",
    .ofKind .rightParen, .ofKind .semicolon,
    .ofKind .letWord, word "x", .ofKind .leftBracket, number "0", .ofKind .rightBracket,
    .ofKind .assign, number "5", .ofKind .semicolon,
    .ofKind .endWord, .ofKind .dot, .ending]

/-- Whether a run has come to its end, and something holds of the machine. -/
def Program.finished (holds : Machine → Bool) : Except Halt Unit × Machine → Bool
  | (.ok (), m) => holds m
  | _ => false

theorem Program.exists_of_finished {holds : Machine → Bool}
    {ended : Except Halt Unit × Machine} (h : finished holds ended = true) :
    ∃ m, ended = (.ok (), m) ∧ holds m = true := by
  unfold finished at h
  split at h
  · exact ⟨_, rfl, h⟩
  · cases h

/-- What the call gave back is an array, but no variable's, so it stays as it was
printed. -/
theorem outputs_printed_echoing : ∃ p m, Program.ofTokens echoing = .ok p ∧
    p.runOn { ticks := 50 } = (.ok (), m) ∧ ¬ p.WritesArrays ∧
    m.printed = ["[None]"] ∧ m.outputs.map m.textOf = [.ok "[None]"] := by
  obtain ⟨p, hp, hholds⟩ := Program.exists_ofTokens (fun p =>
    (p.forest.nodes.toList.all fun node =>
      match node.operator with
      | .output (.read _) => false
      | _ => true) &&
    Program.finished (fun m => m.printed = ["[None]"]) (p.runOn { ticks := 50 }))
    (by decide +kernel : (Program.ofTokens echoing).toOption.any _ = true)
  obtain ⟨hnodes, hrun⟩ := Bool.and_eq_true_iff.mp hholds
  have hno : ¬ p.WritesArrays := by
    refine Program.not_writesArrays fun index node target hnode hoperator => ?_
    have hmem : node ∈ p.forest.nodes.toList :=
      Array.mem_toList_iff.mpr (Array.mem_of_getElem? hnode)
    have hnode := List.all_eq_true.mp hnodes node hmem
    rw [hoperator] at hnode
    cases hnode
  have hprinted := (outputs_printed p [] false 0 50).2 hno
  obtain ⟨m, heq, hholds⟩ := Program.exists_of_finished hrun
  rw [heq] at hprinted
  have htexts := decide_eq_true_eq.mp hholds
  refine ⟨p, m, hp, heq, hno, htexts, hprinted.trans ?_⟩
  rw [htexts]
  rfl

/-- The tokens of a program that writes the array of a variable:

    module m; variable - integer[1] a;
    begin output a; let a[0] := 5; end. -/
def overwriting : List Token :=
  let word text : Token := { kind := .word, text }
  let number text : Token := { kind := .number, text }
  [.ofKind .moduleWord, word "m", .ofKind .semicolon,
    .ofKind .variableWord, .ofKind .minus, word "integer", .ofKind .leftBracket,
    number "1", .ofKind .rightBracket, word "a", .ofKind .semicolon,
    .ofKind .beginWord, .ofKind .outputWord, word "a", .ofKind .semicolon,
    .ofKind .letWord, word "a", .ofKind .leftBracket, number "0", .ofKind .rightBracket,
    .ofKind .assign, number "5", .ofKind .semicolon,
    .ofKind .endWord, .ofKind .dot, .ending]

/-- The slot was empty when the array was written, and it is set when the run is over. -/
theorem outputs_differ : ∃ p m, Program.ofTokens overwriting = .ok p ∧
    p.runOn { ticks := 50 } = (.ok (), m) ∧
    m.printed = ["[None]"] ∧ m.outputs.map m.textOf = [.ok "[5]"] := by
  obtain ⟨p, hp, hruns⟩ := Program.exists_ofTokens (fun p =>
    Program.finished (fun m => m.printed = ["[None]"] &&
      (m.outputs.map m.textOf).map Except.toOption = [some "[5]"]) (p.runOn { ticks := 50 }))
    (by decide +kernel : (Program.ofTokens overwriting).toOption.any _ = true)
  obtain ⟨m, heq, hholds⟩ := Program.exists_of_finished hruns
  simp only [Bool.and_eq_true, decide_eq_true_eq] at hholds
  obtain ⟨hprinted, htexts⟩ := hholds
  obtain ⟨text, houtputs, htext⟩ := List.map_eq_singleton_iff.mp htexts
  refine ⟨p, m, hp, heq, hprinted, houtputs.trans ?_⟩
  cases text with
  | error fault => cases htext
  | ok text =>
    cases htext
    rfl

end Pseudocode
