import Pseudocode.Proofs.Locality.Builder

/-!
# The parser moves on

The only step that takes a token is `take`, and it does not take the end of input: asked
for that, it leaves the tokens as they are (`Token.take_moves`).  So whatever a step of
the parser takes, the end of input is not among it, and the tokens ahead are what was
ahead before without what was taken.

How much a step takes at least adds up along a sequence (`Reads.bind`), and most steps
start with a token that they have looked at.  Repetitions take at least nothing, however
they are bounded, so that a row takes what its first operand takes, and a body may be
empty.  In the end every level of expressions, every statement and every operator of the
top level takes at least one token.
-/

namespace Pseudocode

/-- Taking a token moves on behind it, unless it is the end of input. -/
theorem Token.take_moves {kinds : List Kind} {ts ts' : List Token} {t : Token}
    (h : take kinds ts = .ok (t, ts')) :
    t = first ts ∧ t.kind ∈ kinds ∧
      (t.kind = .endOfInput ∧ ts' = ts ∨ t.kind ≠ .endOfInput ∧ ts = t :: ts') := by
  unfold take at h
  by_cases hkind : kinds.contains (first ts).kind = true
  · simp only [hkind, if_true] at h
    cases h
    refine ⟨rfl, List.contains_iff_mem.mp hkind, ?_⟩
    by_cases hend : (first ts).kind = .endOfInput
    · exact .inl ⟨hend, if_pos hend⟩
    · refine .inr ⟨hend, ?_⟩
      rw [if_neg hend]
      cases ts with
      | nil => exact absurd rfl hend
      | cons t ts => rfl
  · simp only [hkind] at h
    cases h

section

variable {σ α β : Type} [Ahead σ] {least more : Nat} {x : StateT σ (Except Fault) α}
  {f : α → StateT σ (Except Fault) β}

open Ahead

/-- A step that takes at least so many tokens when it succeeds, the end of input not
among them, and leaves those behind. -/
def Reads (least : Nat) (x : StateT σ (Except Fault) α) : Prop :=
  ∀ s a s', x s = .ok (a, s') → ∃ used, least ≤ used.length ∧
    (∀ t ∈ used, t.kind ≠ .endOfInput) ∧ ahead s = used ++ ahead s'

/-- A step that takes a token whenever it succeeds. -/
abbrev Advances (x : StateT σ (Except Fault) α) : Prop := Reads 1 x

namespace Reads

/-- To take so many tokens is to take some. -/
theorem any (h : Reads least x) : Reads 0 x := by
  intro s a s' hrun
  obtain ⟨used, -, hsolid, hahead⟩ := h s a s' hrun
  exact ⟨used, Nat.zero_le _, hsolid, hahead⟩

/-- A local step whose tokens are none takes at least nothing. -/
theorem blind {taken : List Token → Prop} (h : Local taken x)
    (hnothing : ∀ used, taken used → used = []) : Reads 0 x := by
  intro s a s' hrun
  obtain ⟨used, htaken, hahead, -⟩ := h.run hrun
  obtain rfl := hnothing used htaken
  exact ⟨[], Nat.le_refl _, nofun, hahead⟩

/-- The same for one that is known to be local and to take nothing. -/
theorem nothing (h : Local Nothing x) : Reads 0 x := blind h fun _ h => h

/-- A value takes nothing. -/
theorem pure (a : α) : Reads 0 (Pure.pure a : StateT σ (Except Fault) α) :=
  nothing (Local.pure a)

/-- A result takes nothing. -/
theorem lift (e : Except Fault α) : Reads 0 (liftM e : StateT σ (Except Fault) α) :=
  nothing (Local.lift e)

/-- A step that fails takes as much as you like, for it leaves no state. -/
theorem throw (fault : Fault) :
    Reads least (MonadExcept.throw fault : StateT σ (Except Fault) α) := by
  intro s a s' hrun
  exact (throw_ok.mp hrun).elim

/-- To look at all that is ahead takes nothing. -/
theorem get : Reads 0 (MonadState.get : StateT σ (Except Fault) σ) := by
  intro s a s' hrun
  cases get_ok.mp hrun
  exact ⟨[], Nat.le_refl _, nofun, rfl⟩

/-- A choice takes what the step takes that is chosen. -/
theorem ite {p : Prop} [Decidable p] {y : StateT σ (Except Fault) α} (hx : Reads least x)
    (hy : Reads least y) : Reads least (if p then x else y) := by
  by_cases hp : p
  · rw [if_pos hp]
    exact hx
  · rw [if_neg hp]
    exact hy

/-- What the steps of a sequence take adds up. -/
theorem bind (hx : Reads least x) (hf : ∀ a, Reads more (f a)) :
    Reads (least + more) (x >>= f) := by
  intro s b s' hrun
  obtain ⟨a, s₁, hfirst, hsecond⟩ := bind_ok.mp hrun
  obtain ⟨used, hleast, hsolid, hahead⟩ := hx s a s₁ hfirst
  obtain ⟨used', hmore, hsolid', hahead'⟩ := hf a s₁ b s' hsecond
  refine ⟨used ++ used', ?_, ?_, ?_⟩
  · rw [List.length_append]
    exact Nat.add_le_add hleast hmore
  · intro t ht
    exact (List.mem_append.mp ht).elim (hsolid t) (hsolid' t)
  · rw [hahead, hahead', List.append_assoc]

/-- A sequence takes what its first step takes. -/
theorem andThen (hx : Reads least x) (hf : ∀ a, Reads 0 (f a)) : Reads least (x >>= f) :=
  hx.bind hf

/-- Behind a step that may take nothing. -/
theorem behind (hx : Reads 0 x) (hf : ∀ a, Reads least (f a)) : Reads least (x >>= f) := by
  have h := hx.bind hf
  rw [Nat.zero_add] at h
  exact h

/-- A step that takes a token leaves fewer. -/
theorem shorter (h : Advances x) {s s' : σ} {a : α} (hrun : x s = .ok (a, s')) :
    (ahead s').length < (ahead s).length := by
  obtain ⟨used, hused, -, hahead⟩ := h s a s' hrun
  rw [hahead, List.length_append]
  omega

end Reads

end

/-! ## Readers

All of these take a token or give the tokens back as they are.  Where an inner reader is given,
it is enough to know that it takes none from behind; so the levels of expressions can be tied
together afterwards. -/

namespace Reader

open Pseudocode.Expr

variable {α : Type} {least : Nat}

/-- To take a token of a kind other than the end of input takes a token. -/
theorem reads_take {kinds : List Token.Kind} (hend : Token.Kind.endOfInput ∉ kinds) :
    Advances (take kinds) := by
  intro ts t ts' hrun
  obtain ⟨-, hkind, ⟨hstop, -⟩ | ⟨hgo, hahead⟩⟩ := Token.take_moves hrun
  · exact absurd (hstop ▸ hkind) hend
  · exact ⟨[t], Nat.le_refl _, fun u hu => List.mem_singleton.mp hu ▸ hgo, hahead⟩

/-- To look at a token does not take it. -/
theorem reads_look : Reads 0 look := .nothing local_look

/-- To see a token does not take it. -/
theorem reads_sees (kinds : List Token.Kind) : Reads 0 (sees kinds) :=
  .nothing (local_sees kinds)

/-- Items behind commas take nothing if there is no comma, and never less. -/
theorem reads_behindCommas {item : Reader α} (hitem : Reads 0 item) :
    ∀ bound, Reads 0 (behindCommas item bound)
  | [] => .pure _
  | _ :: bound => by
    have ih := reads_behindCommas hitem bound
    refine (reads_sees _).behind fun comma => .ite ?_ (.pure _)
    refine (reads_take (by decide)).any.behind fun _ => ?_
    refine hitem.behind fun a => ?_
    exact ih.behind fun as => .pure (a :: as)

/-- A list in parentheses takes the parentheses. -/
theorem advances_parenthesised {item : Reader α} (hitem : Reads 0 item) :
    Advances (parenthesised item) := by
  have hclosing : ∀ as : List α,
      Reads 0 (take [.rightParen] >>= fun _ => pure as : Reader (List α)) :=
    fun as => (reads_take (by decide)).any.behind fun _ => .pure as
  refine (reads_take (by decide)).andThen fun _ => ?_
  refine (reads_sees _).behind fun empty => .ite (hclosing []) ?_
  refine hitem.behind fun a => Reads.get.behind fun bound => ?_
  exact (reads_behindCommas hitem bound).behind fun as => hclosing (a :: as)

section

variable {names : Names} {inner : Reader Expr}

/-- Whatever a name turns out to be, the name itself is taken: the function or the method
of a call, or a variable with or without an index. -/
theorem advances_named (hinner : Reads 0 inner) : Advances (named names inner) := by
  have harguments : Reads 0 (parenthesised inner) := (advances_parenthesised hinner).any
  refine (reads_take (by decide)).andThen fun word => ?_
  refine (reads_sees _).behind fun call => .ite ?call ?_
  case call =>
    refine (Reads.lift _).behind fun callee => ?_
    exact harguments.behind fun arguments => .pure _
  refine (Reads.nothing local_seesMethod).behind fun method => .ite ?method ?read
  case method =>
    refine (reads_take (by decide)).any.behind fun dot => ?_
    refine (reads_take (by decide)).any.behind fun name => ?_
    refine (Reads.lift _).behind fun callee => ?_
    exact harguments.behind fun arguments => .pure _
  case read =>
    cases names.resolve word.text with
    | none => exact .throw _
    | some target =>
      refine (reads_sees _).behind fun slot => .ite ?_ (.pure _)
      refine (reads_take (by decide)).any.behind fun bracket => ?_
      refine hinner.behind fun index => ?_
      exact (reads_take (by decide)).any.behind fun bracket' => .pure _

/-- Every operand begins with a token that is taken. -/
theorem advances_primary (hinner : Reads 0 inner) : Advances (primary names inner) := by
  refine reads_look.behind fun t => ?_
  cases t.kind with
  | number => exact (reads_take (by decide)).andThen fun _ => .lift _
  | text => exact (reads_take (by decide)).andThen fun _ => .pure _
  | trueWord => exact (reads_take (by decide)).andThen fun _ => .pure _
  | falseWord => exact (reads_take (by decide)).andThen fun _ => .pure _
  | word => exact advances_named hinner
  | leftParen =>
    refine (reads_take (by decide)).andThen fun _ => ?_
    refine hinner.behind fun e => ?_
    exact (reads_take (by decide)).any.behind fun _ => .pure e
  | _ => exact .throw _

/-- A minus is taken, and what has none is an operand. -/
theorem advances_unary (hinner : Reads 0 inner) : Advances (unary names inner) := by
  refine (reads_sees _).behind fun minus => .ite ?_ (advances_primary hinner)
  refine (reads_take (by decide)).andThen fun _ => ?_
  refine reads_look.behind fun t => .ite ?_ ?_
  · exact (reads_take (by decide)).any.behind fun _ => .lift _
  · exact (advances_primary hinner).any.behind fun _ => .pure _

/-- The rest of a row may be nothing. -/
theorem reads_rowRest {kinds : List Token.Kind} {join : String → Expr → Expr → Expr}
    {operand : Reader Expr} (hend : Token.Kind.endOfInput ∉ kinds)
    (hoperand : Reads 0 operand) :
    ∀ bound left, Reads 0 (rowRest kinds join operand bound left)
  | [], _ => .pure _
  | _ :: bound, _ => by
    have ih : ∀ left, Reads 0 (rowRest kinds join operand bound left) :=
      reads_rowRest hend hoperand bound
    refine (reads_sees _).behind fun more => .ite ?_ (.pure _)
    refine (reads_take hend).any.behind fun t => ?_
    exact hoperand.behind fun right => ih _

/-- A row takes what its first operand takes. -/
theorem reads_row {kinds : List Token.Kind} {join : String → Expr → Expr → Expr}
    {operand : Reader Expr} (hend : Token.Kind.endOfInput ∉ kinds)
    (hoperand : Reads least operand) : Reads least (row kinds join operand) :=
  hoperand.andThen fun left => Reads.get.behind fun bound =>
    reads_rowRest hend hoperand.any bound left

/-- Every level of expressions takes a token, over any reader of nested ones. -/
structure Levels (names : Names) (inner : Reader Expr) : Prop where
  disjunction : Advances (disjunction names inner)
  conjunction : Advances (conjunction names inner)
  equality : Advances (equality names inner)
  relation : Advances (relation names inner)
  additive : Advances (additive names inner)
  term : Advances (term names inner)
  unary : Advances (unary names inner)
  primary : Advances (primary names inner)
  named : Advances (named names inner)
  arguments : Advances (parenthesised inner)

/-- A level takes what the level below it takes, for it begins with it, down to an operand;
so the proof goes up from there. -/
theorem levels (names : Names) (hinner : Reads 0 inner) : Levels names inner := by
  have hunary : Advances (unary names inner) := advances_unary hinner
  have hterm : Advances (term names inner) := reads_row (by decide) hunary
  have hadditive : Advances (additive names inner) := reads_row (by decide) hterm
  have hrelation : Advances (relation names inner) := reads_row (by decide) hadditive
  have hequality : Advances (equality names inner) := by
    refine hrelation.andThen fun left => ?_
    refine (reads_sees _).behind fun seen => .ite ?_ (.pure left)
    refine (reads_take (by decide)).any.behind fun t => ?_
    exact hrelation.any.behind fun right => .pure _
  have hconjunction : Advances (conjunction names inner) := reads_row (by decide) hequality
  exact {
    disjunction := reads_row (by decide) hconjunction
    conjunction := hconjunction
    equality := hequality
    relation := hrelation
    additive := hadditive
    term := hterm
    unary := hunary
    primary := advances_primary hinner
    named := advances_named hinner
    arguments := advances_parenthesised hinner }

/-- Nothing nested needs to take a token for the whole to take one, so that no induction
is needed but for the depth at which it gives up. -/
theorem advances_expression (names : Names) : ∀ depth, Advances (expression names depth)
  | 0 => .throw _
  | depth + 1 => (levels names (advances_expression names depth).any).disjunction

end

/-- A type takes its word. -/
theorem advances_declaredType : Advances Builder.declaredType := by
  refine (reads_take (by decide)).andThen fun word => ?_
  refine (reads_sees _).behind fun isArray => .ite ?_ (.pure _)
  refine (reads_take (by decide)).any.behind fun _ => ?_
  refine (reads_take (by decide)).any.behind fun size => ?_
  refine (reads_take (by decide)).any.behind fun _ => .ite (.throw _) ?_
  cases Numeral.readInteger size.text with
  | error fault => exact .throw _
  | ok length => exact .ite (.throw _) (.pure _)

/-- A parameter takes its type and its name. -/
theorem advances_parameter : Advances Builder.parameter := by
  refine advances_declaredType.andThen fun type => ?_
  exact (reads_take (by decide)).any.behind fun name => .pure _

end Reader

/-! ## Statements

A statement begins with its word, and that is the token that it takes at least.  Of the rest it
is enough to know that no token is given back. -/

namespace Builder

variable {α : Type} {least : Nat}

/-- As a step of the builder, a reader takes what it took. -/
theorem reads_tokens {reader : Reader α} (h : Reads least reader) :
    Reads least (tokens reader) := by
  intro d a d' hrun
  unfold tokens at hrun
  cases hread : reader d.ahead with
  | error fault =>
    rw [hread] at hrun
    cases hrun
  | ok r =>
    rw [hread] at hrun
    cases hrun
    exact h d.ahead r.1 r.2 hread

theorem reads_sees (kinds : List Token.Kind) : Reads 0 (sees kinds) :=
  reads_tokens (Reader.reads_sees kinds)

/-- The builder takes a token of a kind as the readers do. -/
theorem advances_take {kind : Token.Kind} (hend : kind ≠ .endOfInput) :
    Advances (take kind) :=
  reads_tokens (Reader.reads_take (by simpa using hend.symm))

theorem reads_take {kind : Token.Kind} (hend : kind ≠ .endOfInput) : Reads 0 (take kind) :=
  (advances_take hend).any

/-- An expression takes a token, at every depth. -/
theorem advances_expression (depth : Nat) : Advances (expression depth) :=
  Reads.get.behind fun _ => reads_tokens (Reader.advances_expression _ depth)

theorem reads_expression (depth : Nat) : Reads 0 (expression depth) :=
  (advances_expression depth).any

/-- To refuse a program takes as much as you like. -/
theorem reads_refuse (fault : ParseFault) : Reads least (refuse fault : Builder α) :=
  .throw _

/-- The end of a loop or a conditional takes its tokens. -/
theorem reads_closingWord (kind : Token.Kind) (hend : kind ≠ .endOfInput) :
    Reads 0 (closingWord kind) := by
  refine (reads_take (by decide)).behind fun _ => ?_
  refine (reads_take hend).behind fun _ => ?_
  exact (reads_take (by decide)).behind fun _ => .pure _

/-- The end of a function or a class takes its tokens. -/
theorem reads_closingName (name : String) : Reads 0 (closingName name) := by
  refine (reads_take (by decide)).behind fun _ => ?_
  refine (reads_take (by decide)).behind fun t => ?_
  have hlast : Reads 0 (take .dot >>= fun _ => pure ⟨⟩ : Builder PUnit) :=
    (reads_take (by decide)).behind fun _ => .pure _
  exact .ite ((reads_refuse _).behind fun _ => hlast) hlast

/-- To attach an operator takes no tokens. -/
theorem reads_attach {π : Type} {nest : π → Nat → Builder π} (hnest : Blind nest)
    (owner : π) (previous : Option Nat) (node : Node Operator) :
    Reads 0 (attach nest owner previous node) :=
  .nothing (local_attach hnest owner previous node)

section

variable {π : Type} {nest : π → Nat → Builder π} (hnest : Blind nest)
  {statement : Builder (Node Operator)} (hstatement : Reads 0 statement)

include hnest hstatement

/-- A body takes what its statements take; it may have none. -/
theorem reads_bodyRest (line : String) (closing : List Token.Kind) :
    ∀ bound owner previous,
      Reads 0 (bodyRest nest statement line closing bound owner previous)
  | [], _, _ => .pure _
  | _ :: bound, owner, previous => by
    have ih := reads_bodyRest line closing bound
    refine (reads_sees _).behind fun ended => .ite (.pure _) ?_
    refine Reads.get.behind fun d => .ite (reads_refuse _) ?_
    refine hstatement.behind fun node => ?_
    exact (reads_attach hnest owner previous node).behind fun attached => ih _ _

/-- A body takes what its statements take, together with its owner. -/
theorem reads_body (operator : Operator) (closing : List Token.Kind) (owner : π) :
    Reads 0 (body nest statement operator closing owner) :=
  Reads.get.behind fun _ => reads_bodyRest hnest hstatement _ _ _ _ _

end

theorem reads_declarationTail (type : DeclaredType) (name : String)
    (initial : Option Expr) : Reads 0 (declarationTail type name initial) :=
  (reads_take (by decide)).behind fun _ => .nothing (local_declare _ _ (Local.pure _))

/-- A declaration takes its first word. -/
theorem advances_declaration (depth : Nat) : Advances (declaration depth) := by
  rw [declaration_eq]
  refine (advances_take (by decide)).andThen fun _ => ?_
  refine (reads_take (by decide)).behind fun _ => ?_
  refine (reads_tokens Reader.advances_declaredType.any).behind fun type => ?_
  refine (reads_take (by decide)).behind fun name => ?_
  refine (reads_sees _).behind fun given => .ite ?_ (reads_declarationTail type _ none)
  refine (reads_take (by decide)).behind fun _ => ?_
  exact (reads_expression depth).behind fun e => reads_declarationTail type _ (some e)

theorem reads_assignmentTail (depth : Nat) (target : Occurrence)
    (element : Option Expr) : Reads 0 (assignmentTail depth target element) := by
  refine (reads_take (by decide)).behind fun _ => ?_
  refine (reads_expression depth).behind fun value => ?_
  exact (reads_take (by decide)).behind fun _ => .pure _

/-- An assignment takes its first word. -/
theorem advances_assignment (depth : Nat) : Advances (assignment depth) := by
  rw [assignment_eq]
  refine (advances_take (by decide)).andThen fun _ => ?_
  refine (reads_take (by decide)).behind fun name => ?_
  refine (Reads.nothing (local_target _)).behind fun target => ?_
  refine (reads_sees _).behind fun slot => .ite ?_ (reads_assignmentTail depth target none)
  refine (reads_take (by decide)).behind fun _ => ?_
  refine (reads_expression depth).behind fun e => ?_
  exact (reads_take (by decide)).behind fun _ => reads_assignmentTail depth target (some e)

/-- An `input` takes its word. -/
theorem advances_input : Advances input := by
  refine (advances_take (by decide)).andThen fun _ => ?_
  refine (reads_take (by decide)).behind fun name => ?_
  refine (Reads.nothing (local_target _)).behind fun target => ?_
  exact (reads_take (by decide)).behind fun _ => .pure _

/-- An `output` takes its word. -/
theorem advances_output (depth : Nat) : Advances (output depth) := by
  refine (advances_take (by decide)).andThen fun _ => ?_
  refine (reads_expression depth).behind fun e => ?_
  exact (reads_take (by decide)).behind fun _ => .pure _

/-- A call takes its word. -/
theorem advances_call (depth : Nat) : Advances (call depth) := by
  refine (advances_take (by decide)).andThen fun _ => ?_
  refine Reads.get.behind fun d => ?_
  have hnested : Reads 0 (Expr.expression d.names depth) :=
    (Reader.advances_expression _ depth).any
  refine (reads_tokens (Reader.advances_primary hnested).any).behind fun e => ?_
  cases e with
  | call name callee arguments => exact (reads_take (by decide)).behind fun _ => .pure _
  | _ => exact reads_refuse _

theorem reads_giveBackTail (f : FunctionDeclaration) (result : Option Expr) :
    Reads 0 (giveBackTail f result) :=
  (reads_take (by decide)).behind fun _ =>
    .ite (reads_refuse _) (.ite (reads_refuse _) (.pure _))

/-- A `return` takes its word. -/
theorem advances_giveBack (depth : Nat) : Advances (giveBack depth) := by
  rw [giveBack_eq]
  refine (advances_take (by decide)).andThen fun t => Reads.get.behind fun d => ?_
  cases d.openFunction? with
  | none => exact reads_refuse _
  | some f =>
    refine (reads_sees _).behind fun seen => .ite (reads_giveBackTail f none) ?_
    exact (reads_expression depth).behind fun e => reads_giveBackTail f (some e)

section

variable {statement : Builder (Node Operator)} (hstatement : Reads 0 statement)
  (depth : Nat)

include hstatement

/-- A loop takes its first word. -/
theorem advances_loop : Advances (loop statement depth) := by
  refine (advances_take (by decide)).andThen fun _ => ?_
  refine (reads_expression depth).behind fun guard => ?_
  refine (reads_take (by decide)).behind fun _ => ?_
  refine (reads_body blind_nestLoose hstatement _ _ _).behind fun node => ?_
  exact (reads_closingWord _ (by decide)).behind fun _ => .pure node

/-- A further branch takes what its body takes, which may be nothing. -/
theorem reads_furtherBranch (operator : Operator) (closing : List Token.Kind) :
    Reads 0 (furtherBranch statement operator closing) := by
  refine (Reads.nothing (local_place _)).behind fun index => ?_
  exact reads_body blind_nestPlaced hstatement operator closing index

/-- Further branches take what they take; there may be none. -/
theorem reads_alternatives (closing : List Token.Kind) :
    ∀ bound, Reads 0 (alternatives statement depth closing bound)
  | [] => .pure _
  | _ :: bound => by
    have ih := reads_alternatives closing bound
    refine (reads_sees _).behind fun more => .ite ?_ (.pure _)
    refine (reads_take (by decide)).behind fun _ => ?_
    refine (reads_expression depth).behind fun guard => ?_
    refine (reads_take (by decide)).behind fun _ => ?_
    refine (reads_furtherBranch hstatement _ _).behind fun index => ?_
    exact ih.behind fun further => .pure (index :: further)

omit hstatement in
theorem reads_branchTail (node : Node Operator) (further : List Nat)
    (fallback : Option Nat) : Reads 0 (branchTail node further fallback) :=
  (reads_closingWord _ (by decide)).behind fun _ => .pure _

/-- The `if` is taken; the branches, of which any may be empty, take what they take. -/
theorem advances_branch : Advances (branch statement depth) := by
  rw [branch_eq]
  refine (advances_take (by decide)).andThen fun _ => ?_
  refine (reads_expression depth).behind fun guard => ?_
  refine (reads_take (by decide)).behind fun _ => ?_
  refine (reads_body blind_nestLoose hstatement _ _ _).behind fun node => ?_
  refine Reads.get.behind fun d => ?_
  refine (reads_alternatives hstatement depth _ _).behind fun further => ?_
  refine (reads_sees _).behind fun otherwise => .ite ?_ (reads_branchTail node further none)
  refine (reads_take (by decide)).behind fun _ => ?_
  refine (reads_furtherBranch hstatement _ _).behind fun index => ?_
  exact reads_branchTail node further (some index)

end

/-- Every statement takes a token, whatever it is nested in. -/
theorem advances_statement : ∀ depth, Advances (statement depth)
  | 0 => .throw _
  | depth + 1 => by
    have hstatement := (advances_statement depth).any
    unfold statement
    refine Reads.get.behind fun d => ?_
    dsimp only
    cases (Token.first d.ahead).kind with
    | whileWord => exact advances_loop hstatement depth
    | ifWord => exact advances_branch hstatement depth
    | variableWord => exact advances_declaration depth
    | letWord => exact advances_assignment depth
    | inputWord => exact advances_input
    | outputWord => exact advances_output depth
    | callWord => exact advances_call depth
    | returnWord => exact advances_giveBack depth
    | _ => exact reads_refuse _

/-! ## The top level

An item begins with its word, too; the `end` of the program is no item. -/

/-- A function behind its header takes what its body takes. -/
theorem reads_functionRest (owner : Owner) (f : FunctionDeclaration) :
    Reads 0 (functionRest owner f) := by
  have hmodify : ∀ g : Draft → Draft, (∀ d, (g d).ahead = d.ahead) →
      Reads 0 (modify g : Builder PUnit) := by
    intro g hg d a d' hrun
    cases modify_ok.mp hrun
    exact ⟨[], Nat.le_refl _, nofun, (hg d).symm⟩
  have hclose : ∀ (d : Draft) number child, (d.closeFunction number child).ahead = d.ahead := by
    intro d number child
    unfold Draft.closeFunction
    split <;> rfl
  refine (Reads.nothing (local_declareFunction owner f)).behind fun number => ?_
  refine (hmodify (fun d => { d with function := some number }) fun _ => rfl).behind ?_
  intro _
  refine (Reads.nothing (local_declareParameters f.parameters)).behind fun _ => ?_
  refine (reads_body blind_nestLoose (advances_statement nestingLimit).any _ _ _).behind ?_
  refine fun node => (hmodify _ fun d => hclose d number node.links.child).behind fun _ => ?_
  exact (reads_closingName f.name).behind fun _ => .pure _

/-- A function takes its name. -/
theorem advances_function (owner : Owner) (className : Option String) (moduleName : String) :
    Advances (function owner className moduleName) := by
  have hparameters : Reads 0 (tokens (Expr.parenthesised parameter)) :=
    reads_tokens (Reader.advances_parenthesised Reader.advances_parameter.any).any
  refine (advances_take (by decide)).andThen fun name => ?_
  refine hparameters.behind fun parameters => ?_
  refine (reads_sees _).behind fun given => .ite ?_ (reads_functionRest _ _)
  refine (reads_take (by decide)).behind fun _ => ?_
  refine (reads_tokens Reader.advances_declaredType.any).behind fun result => ?_
  exact reads_functionRest _ _

/-- The methods of a class take what they take; there may be none. -/
theorem reads_methods {π : Type} {nest : π → Nat → Builder π} (hnest : Blind nest)
    (number : Nat) (className moduleName : String) :
    ∀ bound owner previous,
      Reads 0 (methods nest number className moduleName bound owner previous)
  | [], _, _ => .pure _
  | _ :: bound, owner, previous => by
    have ih := reads_methods hnest number className moduleName bound
    refine (reads_sees _).behind fun more => .ite ?_ (.pure _)
    refine (reads_take (by decide)).behind fun _ => ?_
    refine (advances_function _ _ _).any.behind fun node => ?_
    exact (reads_attach hnest owner previous node).behind fun attached => ih _ _

/-- A class takes its first word. -/
theorem advances_classDeclaration (module : Nat) (m : ModuleDeclaration) :
    Advances (classDeclaration module m) := by
  rw [classDeclaration_eq]
  refine (advances_take (by decide)).andThen fun _ => ?_
  refine (reads_take (by decide)).behind fun name => ?_
  refine (Reads.nothing (local_declareClass module m _)).behind fun number => ?_
  refine Reads.get.behind fun d => ?_
  refine (reads_methods blind_nestLoose number _ _ _ _ _).behind fun node => ?_
  exact (reads_closingName _).behind fun _ => .pure node

/-- A header takes its first word. -/
theorem advances_moduleHeader : Advances moduleHeader := by
  refine (advances_take (by decide)).andThen fun _ => ?_
  refine (reads_take (by decide)).behind fun name => ?_
  refine (reads_take (by decide)).behind fun _ => ?_
  exact .nothing (local_blind fun _ _ => rfl)

/-- Every operator of the top level takes a token. -/
theorem advances_item : Advances item := by
  refine Reads.get.behind fun d => .ite advances_moduleHeader ?_
  cases d.module with
  | none => exact reads_refuse _
  | some module =>
    cases d.openModule? with
    | none => exact reads_refuse _
    | some m =>
      dsimp only
      cases (Token.first d.ahead).kind with
      | beginWord => exact (advances_take (by decide)).andThen fun _ => .pure _
      | functionWord =>
        exact (advances_take (by decide)).andThen fun _ => (advances_function _ _ _).any
      | classWord => exact advances_classDeclaration module m
      | _ => exact advances_statement nestingLimit

/-- The top level takes what its operators take; there may be none. -/
theorem reads_items : ∀ bound, Reads 0 (items bound)
  | [] => .pure _
  | _ :: bound => by
    have ih := reads_items bound
    refine Reads.get.behind fun d => .ite (.pure _) ?_
    refine (reads_sees _).behind fun ended => .ite ?_ ?_
    · exact (reads_take (by decide)).behind fun _ => .pure _
    · refine advances_item.any.behind fun node => ?_
      exact (Reads.nothing (local_hang node)).behind fun _ => ih

end Builder

end Pseudocode
