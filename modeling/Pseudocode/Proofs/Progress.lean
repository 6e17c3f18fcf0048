import Pseudocode.Proofs.Progress.Depth
import Pseudocode.Proofs.Progress.Loops

/-!
# The parser makes progress and ends

Whatever tokens the parser is given, it ends, with a program or with a fault.  The end of
input may stand in the middle of them; it is never taken, so that the parser does not come
behind it.  Whenever an operator, a statement or an expression of any level is read, a
token is taken (`Reads`).

There are two ways in which the parser might go on for ever, and the token closes both.  A
loop is left when no token is ahead, and goes on only behind a token that was taken, so
that it has no more rounds than there are tokens (`Loop.Ends`).  And a token is taken on
the way to whatever is nested, so that nothing is nested deeper than there are tokens
(`SameBelow`).  The bounds in the definitions of the parser decide nothing but how deep a
program may be nested.
-/

namespace Pseudocode

open Builder

/-- Every operator, statement and expression that is read has taken a token, and never the
end of input; all loops end, and so does the recursion; and the top level ends in one way
only, after no more rounds than there are tokens. -/
theorem parser_progresses :
    (∀ kinds ts t ts', Token.take kinds ts = .ok (t, ts') →
      t = Token.first ts ∧ t.kind ∈ kinds ∧
        (t.kind = .endOfInput ∧ ts' = ts ∨ t.kind ≠ .endOfInput ∧ ts = t :: ts')) ∧
    (∀ names depth, Advances (Expr.expression names depth) ∧
      Reader.Levels names (Expr.expression names depth) ∧
      Expr.LoopsEnd names (Expr.expression names depth)) ∧
    (∀ depth, Advances (statement depth) ∧ LoopsEnd depth) ∧
    (∀ names ts more, Expr.expression names (ts.length + 1 + more) ts =
      Expr.expression names (ts.length + 1) ts) ∧
    (∀ d more, statement (d.ahead.length + 1 + more) d = statement (d.ahead.length + 1) d) ∧
    Advances item ∧ (∀ bound, Reads 0 (items bound)) ∧
    ∀ tokens, ∃ n r, n ≤ tokens.length ∧
      (∀ n' r', itemLoop.Runs n' false { ahead := tokens } r' ↔ n' = n ∧ r' = r) ∧
      Program.ofTokens tokens = r.map fun (_, d) => d.program := by
  refine ⟨fun kinds ts t ts' => Token.take_moves, fun names depth => ?_, fun depth => ?_,
    fun names ts more => ?_, fun d more => ?_, advances_item, reads_items, fun tokens => ?_⟩
  · have hnested := Reader.advances_expression names depth
    exact ⟨hnested, Reader.levels names hnested.any, Expr.loopsEnd names hnested.any⟩
  · exact ⟨advances_statement depth, loopsEnd depth⟩
  · exact (Reader.expression_same names _ more ts (Nat.lt_succ_self _)).symm
  · exact (statement_same _ more d (Nat.lt_succ_self _)).symm
  · obtain ⟨n, hn, hruns⟩ := ends_items { ahead := tokens }
    refine ⟨n, _, hn, fun n' r' => ⟨fun h => h.unique hruns, ?_⟩, ?_⟩
    · rintro ⟨rfl, rfl⟩
      exact hruns
    · show (items tokens { ahead := tokens } >>= _).map Draft.program = _
      cases items tokens { ahead := tokens } <;> rfl

/-- A loop that is never closed, with the end of input before its body. -/
def truncated : List Token :=
  [.ofKind .moduleWord, { kind := .word, text := "M" }, .ofKind .semicolon,
    .ofKind .whileWord, .ofKind .trueWord, .ofKind .thenWord, .ending,
    .ofKind .outputWord, .ofKind .trueWord, .ofKind .semicolon]

/-- The end of input stands in the middle of a loop.  Behind it a statement could be read, but
the parser does not come there: it refuses the tokens after ten rounds at most. -/
theorem parser_progresses_truncated :
    (∃ t ts, Token.take [.moduleWord] truncated = .ok (t, ts) ∧ truncated = t :: ts) ∧
    (∃ node d, statement 2 { ahead := truncated.drop 7 } = .ok (node, d) ∧
      ∃ used, 1 ≤ used.length ∧ truncated.drop 7 = used ++ d.ahead) ∧
    ∃ n fault, n ≤ 10 ∧ Program.ofTokens truncated = .error fault ∧
      itemLoop.Runs n false { ahead := truncated } (.error fault) := by
  obtain ⟨htake, -, hstatement, -, -, -, -, hitems⟩ := parser_progresses
  refine ⟨?_, ?_, ?_⟩
  · obtain ⟨-, hkind, ⟨hstop, -⟩ | ⟨-, hahead⟩⟩ :=
      htake [.moduleWord] truncated (.ofKind .moduleWord) truncated.tail rfl
    · cases hstop
    · exact ⟨_, _, rfl, hahead⟩
  · obtain ⟨r, hrun, -⟩ := exists_ok (fun _ => true)
      (by decide +kernel : (statement 2 { ahead := truncated.drop 7 }).toOption.any _ = true)
    obtain ⟨used, hone, -, hahead⟩ := (hstatement 2).1 _ r.1 r.2 hrun
    exact ⟨r.1, r.2, hrun, used, hone, hahead⟩
  · obtain ⟨n, r, hn, hruns, hprogram⟩ := hitems truncated
    have hfails : (Program.ofTokens truncated).toOption.isSome = false := by decide +kernel
    cases r with
    | ok r =>
      rw [hprogram] at hfails
      cases hfails
    | error fault => exact ⟨n, fault, hn, hprogram, (hruns n _).mpr ⟨rfl, rfl⟩⟩

end Pseudocode
