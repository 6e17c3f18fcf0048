import Pseudocode.Proofs.Progress.Steps

/-!
# The recursion of the parser ends

An expression may be nested in parentheses, in brackets and in calls, and a statement in
bodies.  The parser recurs along a depth and refuses what is nested deeper.  The depth does
not make it end: between a level and the next a token is taken, so that a level deeper
than there are tokens is never reached, and any two depths beyond that do the same.

Two steps are compared on states with few tokens ahead (`SameBelow`).  Where a step takes a
token first, what is behind it has one token fewer, and so may differ one depth more
(`SameBelow.behind`); that is the whole argument, made once for each way in which something
is nested.  The levels of expressions in between take nothing before their first operand,
and hand the difference on as it is (`row_same`).

> `expression_same`, `statement_same`: so two depths, both as great as the number of tokens
> ahead, make no difference.
-/

namespace Pseudocode

section

variable {σ α β : Type} [Ahead σ] {m : Nat} {x x' : StateT σ (Except Fault) α}
  {f f' : α → StateT σ (Except Fault) β}

open Ahead

/-- Two steps that do the same when fewer than so many tokens are ahead. -/
def SameBelow (m : Nat) (x x' : StateT σ (Except Fault) α) : Prop :=
  ∀ s, (ahead s).length < m → x s = x' s

namespace SameBelow

/-- A step does the same as itself. -/
theorem refl (x : StateT σ (Except Fault) α) : SameBelow m x x := fun _ _ => rfl

/-- What is the same for more tokens is so for fewer. -/
theorem fewer (h : SameBelow (m + 1) x x') : SameBelow m x x' :=
  fun s hs => h s (Nat.lt_succ_of_lt hs)

/-- A choice is the same if both steps are. -/
theorem ite {p : Prop} [Decidable p] {y y' : StateT σ (Except Fault) α}
    (hx : SameBelow m x x') (hy : SameBelow m y y') :
    SameBelow m (if p then x else y) (if p then x' else y') := by
  by_cases hp : p
  · simpa only [if_pos hp] using hx
  · simpa only [if_neg hp] using hy

/-- Behind steps that do the same there are not more tokens than before. -/
theorem bind (hx : SameBelow m x x') (hreads : Reads 0 x)
    (hf : ∀ a, SameBelow m (f a) (f' a)) : SameBelow m (x >>= f) (x' >>= f') := by
  intro s hs
  show (x s >>= _) = (x' s >>= _)
  rw [← hx s hs]
  cases hrun : x s with
  | error fault => rfl
  | ok r =>
    obtain ⟨used, -, -, hahead⟩ := hreads s r.1 r.2 hrun
    rw [hahead, List.length_append] at hs
    exact hf r.1 r.2 (by omega)

/-- Behind a step that takes a token, the depth counts one less. -/
theorem behind (hx : Advances x) (hf : ∀ a, SameBelow m (f a) (f' a)) :
    SameBelow (m + 1) (x >>= f) (x >>= f') := by
  intro s hs
  show (x s >>= _) = (x s >>= _)
  cases hrun : x s with
  | error fault => rfl
  | ok r =>
    have hless := hx.shorter hrun
    exact hf r.1 r.2 (by omega)

/-- What stands behind one and the same step. -/
theorem after (hx : Reads 0 x) (hf : ∀ a, SameBelow m (f a) (f' a)) :
    SameBelow m (x >>= f) (x >>= f') :=
  (refl x).bind hx hf

/-- What follows is the same. -/
theorem andThen (hx : SameBelow m x x') : SameBelow m (x >>= f) (x' >>= f) := by
  intro s hs
  show (x s >>= _) = (x' s >>= _)
  rw [hx s hs]

end SameBelow

end

/-! ## Expressions -/

namespace Reader

open Pseudocode.Expr

variable {m : Nat}

section

variable {α : Type} {item item' : Reader α} (hitem : SameBelow m item item')
  (hreads : Reads 0 item)

include hitem hreads

/-- Items behind commas are the same if each of them is. -/
theorem behindCommas_same :
    ∀ bound, SameBelow m (behindCommas item bound) (behindCommas item' bound)
  | [] => .refl _
  | _ :: bound => by
    have ih := behindCommas_same bound
    refine .after (reads_sees _) fun comma => .ite ?_ (.refl _)
    refine .after (reads_take (by decide)).any fun _ => ?_
    exact hitem.bind hreads fun a => ih.andThen

/-- The items of a list stand behind its parenthesis. -/
theorem parenthesised_same : SameBelow (m + 1) (parenthesised item) (parenthesised item') := by
  refine .behind (reads_take (by decide)) fun _ => ?_
  refine .after (reads_sees _) fun empty => .ite (.refl _) ?_
  refine hitem.bind hreads fun a => ?_
  exact .after .get fun bound => (behindCommas_same hitem hreads bound).andThen

end

section

variable {operand operand' : Reader Expr} {kinds : List Token.Kind}
  {join : String → Expr → Expr → Expr} (hend : Token.Kind.endOfInput ∉ kinds)
  (hoperand : SameBelow m operand operand') (hreads : Reads 0 operand)

include hend hoperand hreads

/-- The rest of a row is the same if its operands are. -/
theorem rowRest_same : ∀ bound left,
    SameBelow m (rowRest kinds join operand bound left) (rowRest kinds join operand' bound left)
  | [], _ => .refl _
  | _ :: bound, _ => by
    have ih := rowRest_same bound
    refine .after (reads_sees _) fun more => .ite ?_ (.refl _)
    refine .after (reads_take hend).any fun t => ?_
    exact hoperand.bind hreads fun right => ih _

/-- A row takes no token before its first operand, so that it gains nothing over it. -/
theorem row_same : SameBelow m (row kinds join operand) (row kinds join operand') := by
  refine hoperand.bind hreads fun left => ?_
  exact .after .get fun bound => rowRest_same hend hoperand hreads bound left

end

section

variable {names : Names} {inner inner' : Reader Expr} (hinner : SameBelow m inner inner')
  (hreads : Reads 0 inner)

include hinner hreads

/-- Arguments and indices stand behind a name. -/
theorem named_same : SameBelow (m + 1) (named names inner) (named names inner') := by
  have harguments := (parenthesised_same hinner hreads).fewer
  refine .behind (reads_take (by decide)) fun word => ?_
  refine .after (reads_sees _) fun call => .ite ?call ?_
  case call => exact .after (.lift _) fun callee => harguments.andThen
  refine .after (.nothing local_seesMethod) fun method => .ite ?method ?read
  case method =>
    refine .after (reads_take (by decide)).any fun dot => ?_
    refine .after (reads_take (by decide)).any fun name => ?_
    exact .after (.lift _) fun callee => harguments.andThen
  case read =>
    cases names.resolve word.text with
    | none => exact .refl _
    | some target =>
      refine .after (reads_sees _) fun slot => .ite ?_ (.refl _)
      exact .after (reads_take (by decide)).any fun bracket => hinner.andThen

/-- What is nested in an operand stands behind a parenthesis, or behind a name. -/
theorem primary_same : SameBelow (m + 1) (primary names inner) (primary names inner') := by
  refine .after reads_look fun t => ?_
  cases t.kind with
  | word => exact named_same hinner hreads
  | leftParen => exact .behind (reads_take (by decide)) fun _ => hinner.andThen
  | _ => exact .refl _

/-- Between a whole expression and a nested one a token is taken. -/
theorem disjunction_same :
    SameBelow (m + 1) (disjunction names inner) (disjunction names inner') := by
  have h := levels names hreads
  have hprimary : SameBelow (m + 1) (primary names inner) (primary names inner') :=
    primary_same hinner hreads
  have hunary : SameBelow (m + 1) (unary names inner) (unary names inner') := by
    refine .after (reads_sees _) fun minus => .ite ?_ hprimary
    refine .after (reads_take (by decide)).any fun _ => ?_
    exact .after reads_look fun t => .ite (.refl _) hprimary.andThen
  have hterm : SameBelow (m + 1) (term names inner) (term names inner') :=
    row_same (by decide) hunary h.unary.any
  have hadditive : SameBelow (m + 1) (additive names inner) (additive names inner') :=
    row_same (by decide) hterm h.term.any
  have hrelation : SameBelow (m + 1) (relation names inner) (relation names inner') :=
    row_same (by decide) hadditive h.additive.any
  have hequality : SameBelow (m + 1) (equality names inner) (equality names inner') := by
    refine hrelation.bind h.relation.any fun left => ?_
    refine .after (reads_sees _) fun seen => .ite ?_ (.refl _)
    exact .after (reads_take (by decide)).any fun t => hrelation.andThen
  have hconjunction :
      SameBelow (m + 1) (conjunction names inner) (conjunction names inner') :=
    row_same (by decide) hequality h.equality.any
  exact row_same (by decide) hconjunction h.conjunction.any

end

/-- So a level deeper than there are tokens ahead is never reached: each level uses up one
of them. -/
theorem expression_same (names : Names) : ∀ m more,
    SameBelow m (expression names m) (expression names (m + more))
  | 0, _ => nofun
  | m + 1, more => by
    rw [Nat.add_right_comm]
    exact disjunction_same (expression_same names m more) (advances_expression names m).any

end Reader

/-! ## Statements -/

namespace Builder

variable {m : Nat}

/-- As steps of the builder, readers are the same where they were. -/
theorem tokens_same {α : Type} {reader reader' : Reader α} (h : SameBelow m reader reader') :
    SameBelow m (tokens reader) (tokens reader') := by
  intro d hd
  show (reader d.ahead >>= _) = (reader' d.ahead >>= _)
  rw [h d.ahead hd]

section

variable {depth depth' : Nat}
  (hnested : ∀ names, SameBelow m (Expr.expression names depth) (Expr.expression names depth'))

include hnested

/-- Expressions are the same at two depths that are great enough. -/
theorem expression_same : SameBelow m (expression depth) (expression depth') :=
  .after .get fun d => tokens_same (hnested d.names)

/-- The initial value of a declaration stands behind its first word. -/
theorem declaration_same : SameBelow (m + 1) (declaration depth) (declaration depth') := by
  rw [declaration_eq, declaration_eq]
  refine .behind (advances_take (by decide)) fun _ => ?_
  refine .after (reads_take (by decide)) fun _ => ?_
  refine .after (reads_tokens Reader.advances_declaredType.any) fun type => ?_
  refine .after (reads_take (by decide)) fun name => ?_
  refine .after (reads_sees _) fun given => .ite ?_ (.refl _)
  exact .after (reads_take (by decide)) fun _ => (expression_same hnested).andThen

/-- The value of an assignment stands behind its sign. -/
theorem assignmentTail_same (target : Occurrence) (element : Option Expr) :
    SameBelow m (assignmentTail depth target element)
      (assignmentTail depth' target element) :=
  .after (reads_take (by decide)) fun _ => (expression_same hnested).andThen

/-- Index and value of an assignment stand behind its first word. -/
theorem assignment_same : SameBelow (m + 1) (assignment depth) (assignment depth') := by
  rw [assignment_eq, assignment_eq]
  refine .behind (advances_take (by decide)) fun _ => ?_
  refine .after (reads_take (by decide)) fun name => ?_
  refine .after (.nothing (local_target _)) fun target => ?_
  refine .after (reads_sees _) fun slot => .ite ?_ (assignmentTail_same hnested target none)
  refine .after (reads_take (by decide)) fun _ => ?_
  refine (expression_same hnested).bind (reads_expression depth) fun e => ?_
  exact .after (reads_take (by decide)) fun _ => assignmentTail_same hnested target (some e)

/-- What is written stands behind the word for it. -/
theorem output_same : SameBelow (m + 1) (output depth) (output depth') :=
  .behind (advances_take (by decide)) fun _ => (expression_same hnested).andThen

/-- So does what is called. -/
theorem call_same : SameBelow (m + 1) (call depth) (call depth') := by
  refine .behind (advances_take (by decide)) fun _ => ?_
  refine .after .get fun d => ?_
  have hreads : Reads 0 (Expr.expression d.names depth) :=
    (Reader.advances_expression _ depth).any
  exact (tokens_same (Reader.primary_same (hnested d.names) hreads).fewer).andThen

/-- So does what is given back. -/
theorem giveBack_same : SameBelow (m + 1) (giveBack depth) (giveBack depth') := by
  refine .behind (advances_take (by decide)) fun t => ?_
  refine .after .get fun d => ?_
  cases d.openFunction? with
  | none => exact .refl _
  | some f =>
    exact .after (reads_sees _) fun seen => .ite (.refl _) (expression_same hnested).andThen

variable {statement statement' : Builder (Node Operator)}
  (hstatement : SameBelow m statement statement') (hreads : Reads 0 statement)

include hstatement hreads

omit hnested in
/-- Bodies are as deep as their statements are. -/
theorem bodyRest_same {π : Type} {nest : π → Nat → Builder π} (hnest : Blind nest)
    (line : String) (closing : List Token.Kind) : ∀ bound owner previous,
      SameBelow m (bodyRest nest statement line closing bound owner previous)
        (bodyRest nest statement' line closing bound owner previous)
  | [], _, _ => .refl _
  | _ :: bound, owner, previous => by
    have ih := bodyRest_same hnest line closing bound
    refine .after (reads_sees _) fun ended => .ite (.refl _) ?_
    refine .after .get fun d => .ite (.refl _) ?_
    refine hstatement.bind hreads fun node => ?_
    exact .after (reads_attach hnest owner previous node) fun attached => ih _ _

omit hnested in
/-- The same for a body, which is a row with its first bound. -/
theorem body_same {π : Type} {nest : π → Nat → Builder π} (hnest : Blind nest)
    (operator : Operator) (closing : List Token.Kind) (owner : π) :
    SameBelow m (body nest statement operator closing owner)
      (body nest statement' operator closing owner) :=
  .after .get fun _ => bodyRest_same hstatement hreads hnest _ _ _ _ _

omit hnested in
/-- A further branch is as deep as its body. -/
theorem furtherBranch_same (operator : Operator) (closing : List Token.Kind) :
    SameBelow m (furtherBranch statement operator closing)
      (furtherBranch statement' operator closing) :=
  .after (.nothing (local_place _)) fun index =>
    body_same hstatement hreads blind_nestPlaced operator closing index

/-- The condition and the body of a loop stand behind its first word. -/
theorem loop_same : SameBelow (m + 1) (loop statement depth) (loop statement' depth') := by
  refine .behind (advances_take (by decide)) fun _ => ?_
  refine (expression_same hnested).bind (reads_expression depth) fun guard => ?_
  refine .after (reads_take (by decide)) fun _ => ?_
  exact (body_same hstatement hreads blind_nestLoose _ _ _).andThen

/-- Further branches are as deep as their bodies. -/
theorem alternatives_same (closing : List Token.Kind) : ∀ bound,
    SameBelow m (alternatives statement depth closing bound)
      (alternatives statement' depth' closing bound)
  | [] => .refl _
  | _ :: bound => by
    have ih := alternatives_same closing bound
    have hfurther := reads_furtherBranch hreads
    refine .after (reads_sees _) fun more => .ite ?_ (.refl _)
    refine .after (reads_take (by decide)) fun _ => ?_
    refine (expression_same hnested).bind (reads_expression depth) fun guard => ?_
    refine .after (reads_take (by decide)) fun _ => ?_
    exact (furtherBranch_same hstatement hreads _ _).bind (hfurther _ _) fun index => ih.andThen

/-- All branches stand behind the `if`. -/
theorem branch_same : SameBelow (m + 1) (branch statement depth) (branch statement' depth') := by
  have hbody := reads_body blind_nestLoose hreads
  have hfurther := reads_alternatives hreads depth
  refine .behind (advances_take (by decide)) fun _ => ?_
  refine (expression_same hnested).bind (reads_expression depth) fun guard => ?_
  refine .after (reads_take (by decide)) fun _ => ?_
  refine (body_same hstatement hreads blind_nestLoose _ _ _).bind (hbody _ _ _) fun node => ?_
  refine .after .get fun d => ?_
  refine (alternatives_same hnested hstatement hreads _ _).bind (hfurther _ _) ?_
  refine fun further => .after (reads_sees _) fun otherwise => .ite ?_ (.refl _)
  refine .after (reads_take (by decide)) fun _ => ?_
  exact (furtherBranch_same hstatement hreads _ _).andThen

end

/-- The same holds of statements, and so of a whole program: the depth that the parser
recurs along decides nothing for tokens that are fewer. -/
theorem statement_same : ∀ m more, SameBelow m (statement m) (statement (m + more))
  | 0, _ => nofun
  | m + 1, more => by
    have hnested : ∀ names, SameBelow m (Expr.expression names m)
        (Expr.expression names (m + more)) :=
      fun names => Reader.expression_same names m more
    have hstatement := statement_same m more
    have hreads := (advances_statement m).any
    rw [Nat.add_right_comm]
    unfold statement
    refine .after .get fun d => ?_
    dsimp only
    cases (Token.first d.ahead).kind with
    | whileWord => exact loop_same hnested hstatement hreads
    | ifWord => exact branch_same hnested hstatement hreads
    | variableWord => exact declaration_same hnested
    | letWord => exact assignment_same hnested
    | outputWord => exact output_same hnested
    | callWord => exact call_same hnested
    | returnWord => exact giveBack_same hnested
    | _ => exact .refl _

end Builder

end Pseudocode
