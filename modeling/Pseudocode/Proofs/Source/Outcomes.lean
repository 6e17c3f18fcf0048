import Pseudocode.Proofs.Source.Items

/-!
# What comes out of building a program

Whatever the tokens are, the builder reads something that the rules allow, or it
fails for a reason that can be told from the tokens (`Fault.Foreseen`).  A run is
*careful* if it does one or the other.

What a step leaves behind when it succeeds is
known from the modules before this one, since what it read is written by the rules:
from the tokens that were taken the rules are found, and from the rules what the run must
have been.  So nothing is said twice about forests and tables, and being careful is a
property of what is read only.  And a careful run never finds an operator linked twice or
a block missing, for those faults are not foreseen.

> `attach_careful`: an operator is attached where nothing is yet (`Vacant`), and behind it
> nothing is either.  This is where the checks for a child and a sibling pass.
>
> `statement_careful`: the induction on how deeply statements are nested.
>
> `items_careful`: the top level, hole by hole.

For readers of expressions it is enough that they fail for foreseen reasons
(`Reader.Orderly`), since their grammar says already what they read.

Together: what is built was written by the rules (`ofTokens_built`), and what is not built
is refused for a foreseen reason (`ofTokens_foreseen`).
-/

namespace Pseudocode

open Source Grammar

/-- The faults that reading tokens can end with.  A numeral that cannot be read is
the text of one of the tokens. -/
def Fault.Foreseen (tokens : List Token) : Fault → Prop
  | .parse _ | .undeclared .. | .redeclared .. | .tooDeep => True
  | .configuration (.arrayLength _) => True
  | .numeral fault => ∃ t ∈ tokens, t.kind = .number ∧
      ∃ negative, readNumber t.text negative = .error (.numeral fault)
  | _ => False

/-- Names that are found or reported as undeclared. -/
structure Names.Polite (names : Names) : Prop where
  function : ∀ name fault, names.function name = .error fault →
    ∃ kind name, fault = .undeclared kind name
  method : ∀ owner name fault, names.method owner name = .error fault →
    ∃ kind name, fault = .undeclared kind name

/-- A name that is not found is reported as undeclared, and nothing worse. -/
theorem Source.Context.polite (Γ : Context) : Γ.names.Polite := by
  have hcallee : ∀ table name fault, callee table name = .error fault →
      ∃ kind name, fault = .undeclared kind name := by
    intro table name fault h
    unfold callee at h
    split at h
    · cases h
      exact ⟨_, _, rfl⟩
    · cases h
  refine ⟨fun name fault h => hcallee _ _ _ h, fun owner name fault h => ?_⟩
  unfold names at h
  dsimp only at h
  split at h
  · cases h
    exact ⟨_, _, rfl⟩
  · exact hcallee _ _ _ h

/-! ## Readers

A reader may fail for any reason that a program text can be at fault for; what has to be shown
is that there is such a reason, and that what it leaves are tokens of the list.  The last holds
of all readers, so it is proved once for the ways of putting them together. -/

/-- Tokens of a list are left, or there is a foreseen reason to fail. -/
def Reader.Settled {α : Type} (tokens : List Token) :
    Except Fault (α × List Token) → Prop
  | .ok (_, rest) => ∀ t ∈ rest, t ∈ tokens
  | .error fault => fault.Foreseen tokens

/-- A reader that does so on all tokens of the list. -/
def Reader.Orderly {α : Type} (tokens : List Token) (x : Reader α) : Prop :=
  ∀ ts, (∀ t ∈ ts, t ∈ tokens) → Settled tokens (x ts)

namespace Reader.Orderly

open Pseudocode.Expr

variable {α β : Type} {tokens : List Token}

/-- One orderly step after another is orderly. -/
theorem bind {x : Reader α} {f : α → Reader β} (hx : Orderly tokens x)
    (hf : ∀ a, Orderly tokens (f a)) : Orderly tokens (x >>= f) := by
  intro ts hts
  have hrun := hx ts hts
  show Settled tokens (x ts >>= fun p => f p.1 p.2)
  cases hxs : x ts with
  | error fault =>
    rw [hxs] at hrun
    exact hrun
  | ok p =>
    rw [hxs] at hrun
    exact hf p.1 p.2 hrun

/-- To read nothing is orderly. -/
theorem pure (a : α) : Orderly tokens (Pure.pure a : Reader α) := fun _ hts => hts

/-- To fail is orderly if the fault is foreseen. -/
theorem throw {fault : Fault} (h : fault.Foreseen tokens) :
    Orderly tokens (MonadExcept.throw fault : Reader α) := fun _ _ => h

/-- To look at all that is ahead is orderly. -/
theorem get : Orderly tokens (MonadState.get : Reader (List Token)) := fun _ hts => hts

/-- To see what is ahead is orderly. -/
theorem sees (kinds : List Token.Kind) : Orderly tokens (Reader.sees kinds) :=
  fun _ hts => hts

/-- To take a token is orderly: the fault for another one is foreseen. -/
theorem take (kinds : List Token.Kind) : Orderly tokens (Reader.take kinds) := by
  intro ts hts
  unfold Reader.take Token.take
  dsimp only
  by_cases hkind : kinds.contains (Token.first ts).kind = true
  · rw [if_pos hkind]
    by_cases hend : (Token.first ts).kind = .endOfInput
    · rw [if_pos hend]
      exact hts
    · rw [if_neg hend]
      exact fun t ht => hts t (List.mem_of_mem_tail ht)
  · rw [if_neg hkind]
    trivial

/-- A result is orderly if the faults it may be are foreseen. -/
theorem lift {x : Except Fault α}
    (h : ∀ fault, x = .error fault → fault.Foreseen tokens) :
    Orderly tokens (liftM x : Reader α) := by
  intro ts hts
  cases x with
  | error fault => exact h fault rfl
  | ok a => exact hts

/-- A choice between orderly readers is orderly. -/
theorem ite {p : Prop} [Decidable p] {x y : Reader α} (hx : Orderly tokens x)
    (hy : Orderly tokens y) : Orderly tokens (if p then x else y) := by
  split
  · exact hx
  · exact hy

/-- A token that is taken is one of the list. -/
theorem take_bind {kind : Token.Kind} (hend : kind ≠ .endOfInput) {f : Token → Reader α}
    (h : ∀ t ∈ tokens, t.kind = kind → Orderly tokens (f t)) :
    Orderly tokens (Reader.take [kind] >>= f) := by
  intro ts hts
  have htake := take [kind] ts hts
  show Settled tokens (Reader.take [kind] ts >>= fun p => f p.1 p.2)
  cases hrun : Reader.take [kind] ts with
  | error fault =>
    rw [hrun] at htake
    exact htake
  | ok p =>
    obtain ⟨rfl, hkind⟩ := (Reader.take_one_ok hend).mp hrun
    exact h p.1 (hts _ (List.mem_cons_self ..)) hkind p.2
      fun t ht => hts t (List.mem_cons_of_mem _ ht)

/-- To look at the token ahead takes nothing. -/
theorem look_bind (f : Token → Reader α) (ts : List Token) :
    (Reader.look >>= f) ts = f (Token.first ts) ts := rfl

/-- The same for a token that is looked at first. -/
theorem look_take {kind : Token.Kind} (hend : kind ≠ .endOfInput) {f : Token → Reader α}
    (h : ∀ t ∈ tokens, t.kind = kind → Orderly tokens (f t)) {ts : List Token}
    (hts : ∀ t ∈ ts, t ∈ tokens) (hfirst : (Token.first ts).kind = kind) :
    Settled tokens ((Reader.take [kind] >>= fun _ => f (Token.first ts)) ts) := by
  cases ts with
  | nil => exact absurd hfirst.symm hend
  | cons t rest =>
    have hrun : Reader.take [kind] (t :: rest) = .ok (t, rest) :=
      (Reader.take_one_ok hend).mpr ⟨rfl, hfirst⟩
    show Settled tokens (Reader.take [kind] (t :: rest) >>= fun p => f t p.2)
    rw [hrun]
    exact h t (hts t (List.mem_cons_self ..)) hfirst rest
      fun u hu => hts u (List.mem_cons_of_mem _ hu)

/-- A number that is not read is an integer with too many digits, or beyond 32 bits. -/
theorem readNumber_foreseen {t : Token} (ht : t ∈ tokens) (hkind : t.kind = .number)
    (negative : Bool) {fault : Fault} (h : readNumber t.text negative = .error fault) :
    fault.Foreseen tokens := by
  have hnumeral : ∀ reason, fault = .numeral reason → fault.Foreseen tokens := by
    rintro reason rfl
    exact ⟨t, ht, hkind, negative, h⟩
  have hcases : (∃ reason, fault = .numeral reason) ∨ ∃ reason, fault = .parse reason := by
    unfold readNumber at h
    split at h
    · split at h
      · cases h
      · exact .inl ⟨_, (Except.error.inj h).symm⟩
    · split at h
      · exact .inl ⟨_, (Except.error.inj h).symm⟩
      · dsimp only at h
        generalize (if negative = true then _ else _ : Int) = n at h
        split at h
        · cases h
        · exact .inr ⟨_, (Except.error.inj h).symm⟩
  obtain ⟨reason, hreason⟩ | ⟨reason, rfl⟩ := hcases
  · exact hnumeral reason hreason
  · trivial

/-- A number token is read in an orderly way. -/
theorem number {t : Token} (ht : t ∈ tokens) (hkind : t.kind = .number)
    (negative : Bool) : Orderly tokens (numberLiteral t negative) := by
  refine lift fun fault h => ?_
  cases hread : readNumber t.text negative with
  | ok v =>
    rw [hread] at h
    cases h
  | error fault' =>
    rw [hread] at h
    cases h
    exact readNumber_foreseen ht hkind negative hread

/-- Items behind commas are read in an orderly way if each of them is. -/
theorem behindCommas {item : Reader α} (h : Orderly tokens item) :
    ∀ bound, Orderly tokens (Expr.behindCommas item bound)
  | [] => pure []
  | _ :: bound => by
    unfold Expr.behindCommas
    refine (sees _).bind fun seen => ite ?_ (pure _)
    refine (take _).bind fun _ => ?_
    refine h.bind fun a => ?_
    exact (behindCommas h bound).bind fun _ => pure _

/-- Items in parentheses are read in an orderly way if each of them is. -/
theorem parenthesised {item : Reader α} (h : Orderly tokens item) :
    Orderly tokens (Expr.parenthesised item) := by
  unfold Expr.parenthesised
  refine (take _).bind fun _ => (sees _).bind fun seen => ite ?_ ?_
  · exact (take _).bind fun _ => pure _
  · refine h.bind fun a => ?_
    refine get.bind fun bound => ?_
    refine (behindCommas h bound).bind fun rest => ?_
    exact (take _).bind fun _ => pure _

section

variable {names : Names} {inner : Reader Expr}

/-- Calls and names are read in an orderly way if whole expressions are. -/
theorem named (hnames : names.Polite) (h : Orderly tokens inner) :
    Orderly tokens (Expr.named names inner) := by
  have hundeclared : ∀ {fault : Fault}, (∃ kind name, fault = .undeclared kind name) →
      fault.Foreseen tokens := by
    rintro _ ⟨_, _, rfl⟩
    trivial
  unfold Expr.named
  refine (take _).bind fun word => (sees _).bind fun called => ite ?_ ?_
  · refine (lift fun fault hfault => ?_).bind fun callee => ?_
    · exact hundeclared (hnames.function _ _ hfault)
    · exact (parenthesised h).bind fun _ => pure _
  · have hmethod : Orderly tokens seesMethod := get.bind fun _ => pure _
    refine hmethod.bind fun method => ite ?_ ?_
    · refine (take _).bind fun _ => (take _).bind fun name => ?_
      refine (lift fun fault hfault => ?_).bind fun callee => ?_
      · exact hundeclared (hnames.method _ _ _ hfault)
      · exact (parenthesised h).bind fun _ => pure _
    · split
      · exact throw trivial
      · refine (sees _).bind fun slot => ite ?_ (pure _)
        refine (take _).bind fun _ => ?_
        refine h.bind fun _ => ?_
        exact (take _).bind fun _ => pure _

/-- So are operands. -/
theorem primary (hnames : names.Polite) (h : Orderly tokens inner) :
    Orderly tokens (Expr.primary names inner) := by
  intro ts hts
  unfold Expr.primary
  rw [look_bind]
  cases hkind : (Token.first ts).kind with
  | number => exact look_take (by decide) (fun t ht hkind => number ht hkind false) hts hkind
  | word => exact named hnames h ts hts
  | leftParen =>
    exact ((take _).bind fun _ => h.bind fun _ => (take _).bind fun _ => pure _) ts hts
  | text => exact ((take _).bind fun _ => pure _) ts hts
  | trueWord => exact ((take _).bind fun _ => pure _) ts hts
  | falseWord => exact ((take _).bind fun _ => pure _) ts hts
  | _ => trivial

/-- So are operands with a minus. -/
theorem unary (hnames : names.Polite) (h : Orderly tokens inner) :
    Orderly tokens (Expr.unary names inner) := by
  have hsign : Orderly tokens (do return sign "-" (← Expr.primary names inner)) :=
    (primary hnames h).bind fun _ => pure _
  unfold Expr.unary
  refine (sees _).bind fun minus => ite ?_ (primary hnames h)
  refine (take _).bind fun _ => ?_
  intro ts hts
  rw [look_bind]
  by_cases hinteger : ((Token.first ts).kind = .number && !hasPoint (Token.first ts).text) =
      true
  · rw [if_pos hinteger]
    rw [Bool.and_eq_true, decide_eq_true_eq] at hinteger
    exact look_take (by decide) (fun t ht hkind => number ht hkind true) hts hinteger.1
  · rw [if_neg hinteger]
    exact hsign ts hts

/-- So is the rest of a row, operand by operand. -/
theorem rowRest {kinds : List Token.Kind} {join : String → Expr → Expr → Expr}
    {operand : Reader Expr} (h : Orderly tokens operand) :
    ∀ bound left, Orderly tokens (Expr.rowRest kinds join operand bound left)
  | [], left => pure left
  | _ :: bound, left => by
    unfold Expr.rowRest
    refine (sees _).bind fun seen => ite ?_ (pure _)
    exact (take _).bind fun t => h.bind fun right => rowRest h bound _

/-- So are rows. -/
theorem row {kinds : List Token.Kind} {join : String → Expr → Expr → Expr}
    {operand : Reader Expr} (h : Orderly tokens operand) :
    Orderly tokens (Expr.row kinds join operand) :=
  h.bind fun left => get.bind fun bound => rowRest h bound left

/-- So is every level, one above the other. -/
theorem disjunction (hnames : names.Polite) (h : Orderly tokens inner) :
    Orderly tokens (Expr.disjunction names inner) := by
  have hrelation : Orderly tokens (Expr.relation names inner) := (unary hnames h).row.row.row
  have hequality : Orderly tokens (Expr.equality names inner) := by
    unfold Expr.equality
    refine hrelation.bind fun left => (sees _).bind fun seen => ite ?_ (pure _)
    exact (take _).bind fun t => hrelation.bind fun _ => pure _
  exact hequality.row.row

/-- Expressions are read in an orderly way, however deeply they may be nested. -/
theorem expression (hnames : names.Polite) :
    ∀ depth, Orderly tokens (Expr.expression names depth)
  | 0 => throw trivial
  | depth + 1 => disjunction hnames (expression hnames depth)

end

/-- A type is read in an orderly way: its length may be a number that is too long. -/
theorem declaredType : Orderly tokens Builder.declaredType := by
  unfold Builder.declaredType
  refine (take _).bind fun word => (sees _).bind fun seen => ite ?_ (pure _)
  refine (take _).bind fun _ => take_bind (by decide) fun t ht hkind => ?_
  refine (take _).bind fun _ => ?_
  by_cases hpoint : hasPoint t.text = true
  · rw [if_pos hpoint]
    exact throw trivial
  · rw [if_neg hpoint]
    cases hread : Numeral.readInteger t.text with
    | error fault =>
      refine throw (readNumber_foreseen ht hkind false ?_)
      unfold readNumber
      rw [if_neg hpoint, hread]
    | ok length => exact ite (throw trivial) (pure _)

/-- So is a parameter. -/
theorem parameter : Orderly tokens Builder.parameter := by
  unfold Builder.parameter
  exact declaredType.bind fun type => (take _).bind fun name => pure _

end Reader.Orderly

namespace Builder

/-! ## Careful runs

A statement that is read on some tokens was one by the rules.  This is the converse of laying
it out, and it is shown in the same order: the expressions first, then the statements that have
nothing nested in them. -/

/-- A run that ends as wanted, or for a foreseen reason. -/
def Careful {α : Type} (tokens : List Token) (run : Except Fault (α × Draft))
    (good : α → Draft → Prop) : Prop :=
  match run with
  | .ok (a, d) => good a d
  | .error fault => fault.Foreseen tokens

namespace Careful

variable {α β : Type} {tokens : List Token} {d : Draft}

/-- One careful step after another is careful. -/
theorem bind {x : Builder α} {f : α → Builder β} {good : α → Draft → Prop}
    {good' : β → Draft → Prop} (h : Careful tokens (x d) good)
    (hf : ∀ a d', good a d' → Careful tokens (f a d') good') :
    Careful tokens ((x >>= f) d) good' := by
  show Careful tokens (x d >>= fun p => f p.1 p.2) good'
  cases hrun : x d with
  | error fault =>
    rw [hrun] at h
    exact h
  | ok p =>
    rw [hrun] at h
    exact hf p.1 p.2 h

/-- What a run is known to leave when it succeeds. -/
theorem imp {run : Except Fault (α × Draft)} {good good' : α → Draft → Prop}
    (h : Careful tokens run good)
    (himp : ∀ a d', run = .ok (a, d') → good a d' → good' a d') :
    Careful tokens run good' := by
  cases run with
  | error fault => exact h
  | ok p => exact himp p.1 p.2 rfl h

/-- The same, where more is known of the run as a whole. -/
theorem bind_run {x : Builder α} {f : α → Builder β} {good : α → Draft → Prop}
    {good' : β → Draft → Prop} (h : Careful tokens (x d) good)
    (hf : (∃ a d', good a d') → Careful tokens ((x >>= f) d) good') :
    Careful tokens ((x >>= f) d) good' := by
  cases hrun : x d with
  | error fault =>
    rw [hrun] at h
    rw [bind_of_error hrun]
    exact h
  | ok p =>
    rw [hrun] at h
    exact hf ⟨p.1, p.2, h⟩

/-- What succeeds on some of the tokens ahead leaves the others. -/
theorem read {reader : Reader α} {ts : List Token} {r : List Token → α → Prop}
    (horderly : reader.Orderly tokens) (hsound : Sound reader r)
    (hts : ∀ t ∈ ts, t ∈ tokens) :
    Careful tokens (Builder.tokens reader (d.before ts)) fun a d' =>
      ∃ used rest, ts = used ++ rest ∧ r used a ∧ d' = d.before rest := by
  have hsettled := horderly ts hts
  unfold Builder.tokens
  show Careful tokens (reader ts >>= fun p => pure (p.1, d.before p.2)) _
  cases hrun : reader ts with
  | error fault =>
    rw [hrun] at hsettled
    exact hsettled
  | ok p =>
    obtain ⟨used, hused, hr⟩ := hsound hrun
    exact ⟨used, p.2, hused, hr, rfl⟩

/-- To take a token is careful, and it is known what is left. -/
theorem take {kind : Token.Kind} (hend : kind ≠ .endOfInput) (ts : List Token) :
    Careful tokens (Builder.take kind (d.before ts)) fun t d' =>
      ∃ rest, ts = t :: rest ∧ t.kind = kind ∧ d' = d.before rest := by
  unfold Builder.take Builder.tokens
  show Careful tokens (Reader.take [kind] ts >>= fun p => pure (p.1, d.before p.2)) _
  cases hrun : Reader.take [kind] ts with
  | ok p =>
    obtain ⟨hts, hkind⟩ := (Reader.take_one_ok hend).mp hrun
    exact ⟨p.2, hts, hkind, rfl⟩
  | error fault =>
    unfold Reader.take Token.take at hrun
    dsimp only at hrun
    split at hrun
    · cases hrun
    · cases hrun
      trivial

end Careful

section

variable {tokens : List Token} {d : Draft} {Γ : Context} {ts : List Token} {depth : Nat}

/-- An expression is read carefully, and what is read is written by the rules. -/
theorem expression_careful (hagrees : d.Agrees Γ) (hopen : Γ.modules ≠ [])
    (hts : ∀ t ∈ ts, t ∈ tokens) (depth : Nat) :
    Careful tokens (expression depth (d.before ts)) fun e d' =>
      ∃ used rest, ts = used ++ rest ∧ ExprWritten .read Γ used e ∧ d' = d.before rest := by
  have hnames : (d.before ts).names = Γ.names := (hagrees.before ts).names hopen
  show Careful tokens (Builder.tokens (Expr.expression (d.before ts).names depth) _) _
  rw [hnames]
  exact .read (.expression Γ.polite depth) (expression_sound depth) hts

/-- What is assigned to is found, or reported as undeclared. -/
theorem target_careful (hagrees : d.Agrees Γ) (hopen : Γ.modules ≠ []) (ts : List Token)
    (name : String) :
    Careful tokens (target name (d.before ts)) fun o d' =>
      Γ.resolve name = some o ∧ d' = d.before ts := by
  have hresolve : (d.before ts).resolve name = Γ.resolve name :=
    (hagrees.before ts).resolve hopen name
  unfold target
  rw [get_bind, hresolve]
  cases Γ.resolve name with
  | none => trivial
  | some o => exact ⟨rfl, rfl⟩

/-- A statement that the rules allow was read. -/
def ReadAs (Γ : Context) (ts : List Token) : Prop :=
  ∃ used rest tree Γ', ts = used ++ rest ∧ Written .read .statement Γ used [tree] Γ'

/-- An `output` is read carefully. -/
theorem output_careful (hagrees : d.Agrees Γ) (hopen : Γ.modules ≠ [])
    (hts : ∀ t ∈ ts, t ∈ tokens) :
    Careful tokens (output depth (d.before ts)) fun _ _ => ReadAs Γ ts := by
  unfold output
  refine (Careful.take (by decide) ts).bind ?_
  rintro opening _ ⟨ts₁, rfl, head, rfl⟩
  refine (expression_careful hagrees hopen (fun t ht => hts t (by simp [ht])) depth).bind ?_
  rintro e _ ⟨us, ts₂, rfl, written, rfl⟩
  refine (Careful.take (by decide) ts₂).bind ?_
  rintro semicolon _ ⟨rest, rfl, last, rfl⟩
  exact ⟨_, rest, _, _, by simp, .output head written last⟩

/-- An `input` is read carefully. -/
theorem input_careful (hagrees : d.Agrees Γ) (hopen : Γ.modules ≠ []) :
    Careful tokens (input (d.before ts)) fun _ _ => ReadAs Γ ts := by
  unfold input
  refine (Careful.take (by decide) ts).bind ?_
  rintro opening _ ⟨ts₁, rfl, head, rfl⟩
  refine (Careful.take (by decide) ts₁).bind ?_
  rintro name _ ⟨ts₂, rfl, word, rfl⟩
  refine (target_careful hagrees hopen ts₂ name.text).bind ?_
  rintro o _ ⟨found, rfl⟩
  refine (Careful.take (by decide) ts₂).bind ?_
  rintro semicolon _ ⟨rest, rfl, last, rfl⟩
  exact ⟨_, rest, _, _, rfl, .input head word found last⟩

/-- An assignment behind its target is read carefully. -/
theorem assignmentTail_careful {o : Occurrence} {element : Option Expr}
    (hagrees : d.Agrees Γ) (hopen : Γ.modules ≠ []) (hts : ∀ t ∈ ts, t ∈ tokens) :
    Careful tokens (assignmentTail depth o element (d.before ts)) fun _ _ =>
      ∃ assign us value semicolon rest, ts = assign :: (us ++ semicolon :: rest) ∧
        assign.kind = .assign ∧ ExprWritten .read Γ us value ∧
        semicolon.kind = .semicolon := by
  unfold assignmentTail
  refine (Careful.take (by decide) ts).bind ?_
  rintro assign _ ⟨ts₁, rfl, mark, rfl⟩
  refine (expression_careful hagrees hopen (fun t ht => hts t (by simp [ht])) depth).bind ?_
  rintro value _ ⟨us, ts₂, rfl, written, rfl⟩
  refine (Careful.take (by decide) ts₂).bind ?_
  rintro semicolon _ ⟨rest, rfl, last, rfl⟩
  exact ⟨assign, us, value, semicolon, rest, rfl, mark, written, last⟩

/-- An assignment is read carefully. -/
theorem assignment_careful (hagrees : d.Agrees Γ) (hopen : Γ.modules ≠ [])
    (hts : ∀ t ∈ ts, t ∈ tokens) :
    Careful tokens (assignment depth (d.before ts)) fun _ _ => ReadAs Γ ts := by
  rw [assignment_eq]
  refine (Careful.take (by decide) ts).bind ?_
  rintro opening _ ⟨ts₁, rfl, head, rfl⟩
  refine (Careful.take (by decide) ts₁).bind ?_
  rintro name _ ⟨ts₂, rfl, word, rfl⟩
  refine (target_careful hagrees hopen ts₂ name.text).bind ?_
  rintro o _ ⟨found, rfl⟩
  have hend : ∀ {place ts₃ : List Token} {element : Option Expr},
      Optionally (Bracketed (ExprWritten .read Γ)) place element → ts₂ = place ++ ts₃ →
      Careful tokens (assignmentTail depth o element (d.before ts₃)) fun _ _ =>
        ReadAs Γ (opening :: name :: ts₂) := by
    rintro place ts₃ element slot rfl
    refine (assignmentTail_careful hagrees hopen fun t ht => hts t (by simp [ht])).imp ?_
    rintro _ _ - ⟨assign, us, value, semicolon, rest, rfl, mark, written, last⟩
    exact ⟨_, rest, _, _, by simp, .assignment head word found slot mark written last⟩
  rw [sees_bind]
  by_cases hsees : Token.firstIs [.leftBracket] (d.before ts₂).ahead = true
  · rw [if_pos hsees]
    refine (Careful.take (by decide) ts₂).bind ?_
    rintro bracket _ ⟨ts₃, rfl, left, rfl⟩
    refine (expression_careful hagrees hopen (fun t ht => hts t (by simp [ht])) depth).bind ?_
    rintro index _ ⟨us, ts₄, rfl, written, rfl⟩
    refine (Careful.take (by decide) ts₄).bind ?_
    rintro closing _ ⟨ts₅, rfl, right, rfl⟩
    exact hend (.present (.mk left written right)) (by simp)
  · rw [if_neg hsees]
    exact hend .absent rfl

/-- A call is read carefully as a statement: a fault says that it is none. -/
theorem call_careful (hagrees : d.Agrees Γ) (hopen : Γ.modules ≠ [])
    (hts : ∀ t ∈ ts, t ∈ tokens) :
    Careful tokens (call depth (d.before ts)) fun _ _ => ReadAs Γ ts := by
  unfold call
  refine (Careful.take (by decide) ts).bind ?_
  rintro opening _ ⟨ts₁, rfl, head, rfl⟩
  have hnames : (d.before ts₁).names = Γ.names := (hagrees.before ts₁).names hopen
  rw [get_bind, hnames]
  have hprimary : Careful tokens (Builder.tokens
      (Expr.primary Γ.names (Expr.expression Γ.names depth)) (d.before ts₁)) _ :=
    .read (.primary Γ.polite (.expression Γ.polite depth))
      (primary_sound (expression_sound depth)) fun t ht => hts t (by simp [ht])
  refine hprimary.bind ?_
  rintro e _ ⟨us, ts₂, rfl, operand, rfl⟩
  cases e with
  | call name callee arguments =>
    refine (Careful.take (by decide) ts₂).bind ?_
    rintro semicolon _ ⟨rest, rfl, last, rfl⟩
    exact ⟨_, rest, _, _, by simp, .call head operand last⟩
  | _ => trivial

/-- A `return` behind its result is read carefully, and agrees with its function. -/
theorem giveBackTail_careful {f : FunctionDeclaration} {result : Option Expr} :
    Careful tokens (giveBackTail f result (d.before ts)) fun _ _ =>
      ∃ semicolon rest, ts = semicolon :: rest ∧ semicolon.kind = .semicolon ∧
        result.isSome = f.result.isSome := by
  unfold giveBackTail
  refine (Careful.take (by decide) ts).bind ?_
  rintro semicolon _ ⟨rest, rfl, last, rfl⟩
  by_cases hmissing : (f.result.isSome && result.isNone) = true
  · rw [if_pos hmissing]
    trivial
  · rw [if_neg hmissing]
    by_cases hunexpected : (f.result.isNone && result.isSome) = true
    · rw [if_pos hunexpected]
      trivial
    · rw [if_neg hunexpected]
      refine ⟨semicolon, rest, rfl, last, ?_⟩
      cases hr : f.result <;> cases result <;> simp_all

/-- A `return` is read carefully; a fault may say that it stands outside of functions. -/
theorem giveBack_careful (hagrees : d.Agrees Γ) (hopen : Γ.modules ≠ [])
    (hts : ∀ t ∈ ts, t ∈ tokens) :
    Careful tokens (giveBack depth (d.before ts)) fun _ _ => ReadAs Γ ts := by
  rw [giveBack_eq]
  refine (Careful.take (by decide) ts).bind ?_
  rintro opening _ ⟨ts₁, rfl, head, rfl⟩
  rw [get_bind]
  cases hf : (d.before ts₁).openFunction? with
  | none => trivial
  | some f =>
    have hfunction : Γ.result? = some f.result := by
      rw [← (hagrees.before ts₁).result?, hf]
      rfl
    have hend : ∀ {us ts₂ : List Token} {result : Option Expr},
        Optionally (ExprWritten .read Γ) us result → ts₁ = us ++ ts₂ →
        Careful tokens (giveBackTail f result (d.before ts₂)) fun _ _ =>
          ReadAs Γ (opening :: ts₁) := by
      rintro us ts₂ result value rfl
      refine giveBackTail_careful.imp ?_
      rintro _ _ - ⟨semicolon, rest, rfl, last, hagree⟩
      exact ⟨_, rest, _, _, by simp, .giveBack head value last hfunction hagree⟩
    dsimp only
    rw [sees_bind]
    by_cases hsees : Token.firstIs [.semicolon] (d.before ts₁).ahead = true
    · rw [if_pos hsees]
      exact hend .absent rfl
    · rw [if_neg hsees]
      refine (expression_careful hagrees hopen (fun t ht => hts t (by simp [ht])) depth).bind ?_
      rintro e _ ⟨us, ts₂, rfl, written, rfl⟩
      exact hend (.present written) rfl

/-- A declaration behind its initial value is read carefully, and its name is new. -/
theorem declarationTail_careful {type : DeclaredType} {name : String}
    {initial : Option Expr} (hagrees : d.Agrees Γ) (hopen : Γ.modules ≠ []) :
    Careful tokens (declarationTail type name initial (d.before ts)) fun _ _ =>
      ∃ semicolon rest, ts = semicolon :: rest ∧ semicolon.kind = .semicolon ∧
        name ∉ Γ.table := by
  unfold declarationTail
  refine (Careful.take (by decide) ts).bind ?_
  rintro semicolon _ ⟨rest, rfl, last, rfl⟩
  rw [get_bind]
  show Careful tokens (((d.before rest).declareVariable name
    ⟨type, initial.map .deferred⟩ >>= fun p => Except.ok (p, d.before rest)) >>= _) _
  by_cases htaken : name ∈ Γ.table
  · obtain ⟨kind, hrefused⟩ := (hagrees.before rest).declareVariable_taken hopen htaken
      ⟨type, initial.map .deferred⟩
    rw [hrefused]
    trivial
  · obtain ⟨d', hdeclare, -⟩ := (hagrees.before rest).declareVariable hopen htaken
      ⟨type, initial.map .deferred⟩
    rw [hdeclare]
    exact ⟨semicolon, rest, rfl, last, htaken⟩

/-- A declaration is read carefully. -/
theorem declaration_careful (hagrees : d.Agrees Γ) (hopen : Γ.modules ≠ [])
    (hts : ∀ t ∈ ts, t ∈ tokens) :
    Careful tokens (declaration depth (d.before ts)) fun _ _ => ReadAs Γ ts := by
  rw [declaration_eq]
  refine (Careful.take (by decide) ts).bind ?_
  rintro opening _ ⟨ts₁, rfl, head, rfl⟩
  refine (Careful.take (by decide) ts₁).bind ?_
  rintro minus _ ⟨ts₂, rfl, mark, rfl⟩
  refine (Careful.read .declaredType declaredType_sound
    fun t ht => hts t (by simp [ht])).bind ?_
  rintro type _ ⟨us, ts₃, rfl, kind, rfl⟩
  refine (Careful.take (by decide) ts₃).bind ?_
  rintro name _ ⟨ts₄, rfl, word, rfl⟩
  have hend : ∀ {init ts₅ : List Token} {initial : Option Expr},
      Optionally (Behind .assign (ExprWritten .read Γ)) init initial → ts₄ = init ++ ts₅ →
      Careful tokens (declarationTail type name.text initial (d.before ts₅)) fun _ _ =>
        ReadAs Γ (opening :: minus :: (us ++ name :: ts₄)) := by
    rintro init ts₅ initial value rfl
    refine (declarationTail_careful hagrees hopen).imp ?_
    rintro _ _ - ⟨semicolon, rest, rfl, last, fresh⟩
    have hmarks : Marks [opening, minus] [.variableWord, .minus] := by
      simp [Marks, head, mark]
    exact ⟨_, rest, _, _, by simp, .declaration hmarks kind word value last fresh⟩
  rw [sees_bind]
  by_cases hsees : Token.firstIs [.assign] (d.before ts₄).ahead = true
  · rw [if_pos hsees]
    refine (Careful.take (by decide) ts₄).bind ?_
    rintro assign _ ⟨ts₅, rfl, hassign, rfl⟩
    refine (expression_careful hagrees hopen (fun t ht => hts t (by simp [ht])) depth).bind ?_
    rintro e _ ⟨vs, ts₆, rfl, written, rfl⟩
    exact hend (.present (.mk hassign written)) (by simp)
  · rw [if_neg hsees]
    exact hend .absent rfl

/-! ## Bodies

The rows that rules speak of end where no statement begins; the builder goes on as long as no
closing word stands ahead.  Both mean the same place, because a statement that fails ends the
run. -/

/-- The next operator of a row can be attached: what it will be linked to, the owner or the
operator before it, is not linked to anything there yet. -/
inductive Vacant : {π : Type} → (π → Nat → Builder π) → Draft → π → Option Nat → Prop where
  | loose {d : Draft} {owner : Node Operator} (empty : owner.links.child = none) :
      Vacant nestLoose d owner none
  | placed {d : Draft} {k : Nat} {node : Node Operator}
      (found : d.program.forest.nodes[k]? = some node) (empty : node.links.child = none) :
      Vacant nestPlaced d k none
  | behind {π : Type} {nest : π → Nat → Builder π} {d : Draft} {owner : π} {q : Nat}
      {node : Node Operator} (found : d.program.forest.nodes[q]? = some node)
      (last : node.links.sibling = none) : Vacant nest d owner (some q)

/-- An operator is attached where nothing is yet, and nothing follows it. -/
theorem attach_careful {π : Type} {nest : π → Nat → Builder π} {owner : π}
    {node : Node Operator} {tree : Tree Operator} {d₁ : Draft} {rest : List Token}
    {previous : Option Nat} {more : π → Option Nat → Builder π} {good : π → Draft → Prop}
    {row : Option Place} (h₁ : LaysTree row d rest Γ tree node d₁)
    (hvacant : Vacant nest d owner previous)
    (hmore : ∀ {d₂ : Draft} (owner : π) {previous : Option Nat}, d₂.Agrees Γ →
      Vacant nest d₂ owner previous → Careful tokens (more owner previous (d₂.before rest)) good) :
    Careful tokens ((attach nest owner previous node >>= fun attached =>
      more attached.1 (some attached.2)) d₁) good := by
  obtain ⟨used, hholds, -⟩ := h₁.new
  have hnext : ∀ (owner : π) (f : Forest Operator),
      f.nodes[d₁.size]? = some (node.at d₁.size) →
      Careful tokens (more owner (some d₁.size) (d₁.withForest f)) good := by
    intro owner f hfound
    have hrun := hmore owner (h₁.agrees.withForest f)
      (.behind hfound hholds.sibling)
    rwa [Draft.before_of_ahead (show (d₁.withForest f).ahead = rest from h₁.ahead)] at hrun
  have hkept : ∀ {q : Nat} {before : Node Operator},
      d.program.forest.nodes[q]? = some before →
      q < d₁.size ∧ d₁.program.forest.nodes[q]? = some before := by
    intro q before hq
    have hlt : q < d.size := (Array.getElem?_eq_some_iff.mp hq).1
    exact ⟨Nat.lt_of_lt_of_le hlt h₁.size_le, (h₁.old q hlt (by simp)).trans hq⟩
  cases hvacant with
  | loose empty =>
    rw [attach_loose_bind hholds.loose empty]
    exact hnext _ _ Forest.nodes_placed_last
  | placed found empty =>
    obtain ⟨hlt, hfound⟩ := hkept found
    rw [attach_placed_bind hholds.loose hfound empty]
    refine hnext _ _ ?_
    rw [Forest.nodes_adopted_ne (Nat.ne_of_lt hlt)]
    exact Forest.nodes_placed_last
  | behind found last =>
    obtain ⟨hlt, hfound⟩ := hkept found
    rw [attach_next_bind nest owner hholds.loose hfound last]
    refine hnext _ _ ?_
    rw [Forest.nodes_followed_ne (Nat.ne_of_lt hlt)]
    exact Forest.nodes_placed_last

/-- What statements do at a depth, whatever the tokens. -/
def StatementsCareful (tokens : List Token) (depth : Nat) : Prop :=
  ∀ ⦃d : Draft⦄ ⦃Γ : Context⦄ ⦃ts : List Token⦄, d.Agrees Γ → Γ.modules ≠ [] →
    (∀ t ∈ ts, t ∈ tokens) →
    Careful tokens (statement depth (d.before ts)) fun node d' =>
      ∃ used rest tree Γ', ts = used ++ rest ∧
        Written .read .statement Γ used [tree] Γ' ∧ LaysTree none d rest Γ' tree node d'

/-- The rest of a body is read carefully, from wherever its next operator will be
attached. -/
theorem bodyRest_careful {π : Type} {nest : π → Nat → Builder π}
    (hstatement : StatementsCareful tokens depth) (line : String) (closing : List Token.Kind) :
    ∀ (bound : List Token) {d : Draft} {Γ : Context} {ts : List Token}
      (owner : π) {previous : Option Nat}, d.Agrees Γ → Γ.modules ≠ [] →
      (∀ t ∈ ts, t ∈ tokens) → Vacant nest d owner previous → ts.length < bound.length →
      Careful tokens
        (bodyRest nest (statement depth) line closing bound owner previous (d.before ts))
        fun _ _ => ∃ used rest trees Γ', ts = used ++ rest ∧
          (Token.first rest).kind ∈ closing ∧ Written .read .body Γ used trees Γ' := by
  intro bound
  induction bound with
  | nil =>
    intro d Γ ts owner previous _ _ _ _ hbound
    exact absurd hbound (Nat.not_lt_zero _)
  | cons b bound ih =>
    intro d Γ ts owner previous hagrees hopen hts hvacant hbound
    by_cases hsees : Token.firstIs closing (d.before ts).ahead = true
    · rw [bodyRest, sees_bind, if_pos hsees]
      exact ⟨[], ts, [], Γ, rfl, List.contains_iff_mem.mp hsees, .done⟩
    · by_cases hend : Token.atEnd (d.before ts).ahead = true
      · rw [bodyRest, sees_bind, if_neg hsees, get_bind, if_pos hend]
        trivial
      · rw [bodyRest_next hsees hend]
        refine (hstatement hagrees hopen hts).bind ?_
        rintro node d₁ ⟨used, ts₁, tree, Γ₁, rfl, written, h₁⟩
        obtain ⟨t, us, hused, -⟩ := written.starts rfl
        refine attach_careful h₁ hvacant fun owner previous hagrees₂ hvacant₂ => ?_
        refine (ih owner hagrees₂ (by rwa [written.modules])
          (fun t ht => hts t (by simp [ht])) hvacant₂ ?_).imp ?_
        · simp only [List.length_append, List.length_cons, hused] at hbound
          omega
        · rintro _ _ - ⟨us, rest, trees, Γ', rfl, hclosing, inside⟩
          exact ⟨used ++ us, rest, tree :: trees, Γ', by simp, hclosing, .next written inside⟩

/-- A body is read carefully, for an owner that is still loose. -/
theorem body_careful (hstatement : StatementsCareful tokens depth) (operator : Operator)
    {closing : List Token.Kind} (hclosing : ∀ kind ∈ closing, kind ∈ closers)
    (hagrees : d.Agrees Γ) (hopen : Γ.modules ≠ []) (hts : ∀ t ∈ ts, t ∈ tokens) :
    Careful tokens (body nestLoose (statement depth) operator closing { operator }
        (d.before ts)) fun node d' =>
      ∃ used rest trees Γ' start, ts = used ++ rest ∧ (Token.first rest).kind ∈ closing ∧
        Written .read .body Γ used trees Γ' ∧
        node = { operator, links := { child := start } } ∧
        LaysRow none d none rest Γ' trees start d' := by
  have hrest := bodyRest_careful hstatement (Captioned.line operator) closing
    (Token.ending :: ts) { operator } hagrees hopen hts (Vacant.loose rfl)
    (Nat.lt_succ_self _)
  have hbody : Careful tokens
    (body nestLoose (statement depth) operator closing { operator } (d.before ts)) _ := hrest
  refine hbody.imp ?_
  rintro node d' hrun ⟨used, rest, trees, Γ', rfl, hfirst, inside⟩
  obtain ⟨start, hnode, hrow⟩ :=
    ((inside.laid hopen).body hagrees hclosing hfirst operator).good hrun
  exact ⟨used, rest, trees, Γ', start, rfl, hfirst, inside, hnode, hrow⟩

/-! ## Loops and conditionals

A conditional is read part by part, and each part that was read is one by the rules; so the
whole is one if the last closing word is there. -/

/-- The end of a loop or a conditional is read carefully. -/
theorem closingWord_careful {kind : Token.Kind} (hkind : kind ≠ .endOfInput)
    (ts : List Token) :
    Careful tokens (closingWord kind (d.before ts)) fun _ d' =>
      ∃ closing rest, ts = closing ++ rest ∧ Marks closing [.endWord, kind, .dot] ∧
        d' = d.before rest := by
  unfold closingWord
  refine (Careful.take (by decide) ts).bind ?_
  rintro first _ ⟨ts₁, rfl, hfirst, rfl⟩
  refine (Careful.take hkind ts₁).bind ?_
  rintro second _ ⟨ts₂, rfl, hsecond, rfl⟩
  refine (Careful.take (by decide) ts₂).bind ?_
  rintro dot _ ⟨rest, rfl, hdot, rfl⟩
  exact ⟨[first, second, dot], rest, rfl, by simp [Marks, hfirst, hsecond, hdot], rfl⟩

/-- A condition between the word that it belongs to and a `then`. -/
theorem guarded_careful {β : Type} {kind : Token.Kind} (hkind : kind ≠ .endOfInput)
    (hagrees : d.Agrees Γ) (hopen : Γ.modules ≠ []) (hts : ∀ t ∈ ts, t ∈ tokens)
    (depth : Nat) {f : Expr → Builder β} {good : β → Draft → Prop}
    (hf : ∀ opening us guard rest e, ts = opening :: (us ++ guard :: rest) →
      opening.kind = kind → ExprWritten .read Γ us e → guard.kind = .thenWord →
      Careful tokens (f e (d.before rest)) good) :
    Careful tokens ((do
      let _ ← take kind
      let e ← expression depth
      let _ ← take .thenWord
      f e) (d.before ts)) good := by
  refine (Careful.take hkind ts).bind ?_
  rintro opening _ ⟨ts₁, rfl, head, rfl⟩
  refine (expression_careful hagrees hopen (fun t ht => hts t (by simp [ht])) depth).bind ?_
  rintro e _ ⟨us, ts₂, rfl, condition, rfl⟩
  refine (Careful.take (by decide) ts₂).bind ?_
  rintro guard _ ⟨rest, rfl, mark, rfl⟩
  exact hf opening us guard rest e rfl head condition mark

/-- A loop is read carefully if statements one level down are. -/
theorem loop_careful (hstatement : StatementsCareful tokens depth) (hagrees : d.Agrees Γ)
    (hopen : Γ.modules ≠ []) (hts : ∀ t ∈ ts, t ∈ tokens) :
    Careful tokens (loop (statement depth) depth (d.before ts)) fun _ _ => ReadAs Γ ts := by
  unfold loop
  refine guarded_careful (by decide) hagrees hopen hts depth ?_
  rintro opening us guard ts₃ e rfl head condition mark
  refine (body_careful hstatement _ (by decide) hagrees hopen
    fun t ht => hts t (by simp [ht])).bind ?_
  rintro _ d₁ ⟨used, ts₄, trees, Γ', start, rfl, -, inside, -, h₁⟩
  rw [← Draft.before_of_ahead h₁.ahead]
  refine (closingWord_careful (by decide) ts₄).bind ?_
  rintro _ _ ⟨closing, rest, rfl, last, rfl⟩
  exact ⟨_, rest, _, _, by simp, .loop head condition mark inside last⟩

/-- A further branch is placed first, and its body is read carefully below it. -/
theorem furtherBranch_careful (hstatement : StatementsCareful tokens depth)
    (operator : Operator) {closing : List Token.Kind}
    (hclosing : ∀ kind ∈ closing, kind ∈ closers) (hagrees : d.Agrees Γ)
    (hopen : Γ.modules ≠ []) (plain : operator.Plain)
    (uses : operator.Uses (fun _ => True) d.tables.Calls) (hts : ∀ t ∈ ts, t ∈ tokens) :
    Careful tokens (furtherBranch (statement depth) operator closing (d.before ts))
      fun i d' => ∃ used rest trees Γ', ts = used ++ rest ∧
        (Token.first rest).kind ∈ closing ∧ Written .read .body Γ used trees Γ' ∧
        LaysEach d rest Γ' [.node operator trees [] none] [i] d' := by
  have hread : Careful tokens
      (furtherBranch (statement depth) operator closing (d.before ts)) fun _ _ =>
      ∃ used rest trees Γ', ts = used ++ rest ∧ (Token.first rest).kind ∈ closing ∧
        Written .read .body Γ used trees Γ' := by
    unfold furtherBranch
    rw [place_bind rfl]
    -- the branch has just been placed, with nothing nested in it
    exact bodyRest_careful hstatement _ closing (Token.ending :: ts) d.size
      (hagrees.withForest _) hopen hts (.placed Forest.nodes_placed_last rfl)
      (Nat.lt_succ_self _)
  refine hread.imp ?_
  rintro i d' hrun ⟨used, rest, trees, Γ', rfl, hfirst, inside⟩
  exact ⟨used, rest, trees, Γ', rfl, hfirst, inside,
    (furtherBranch_gets (inside.laid hopen) hagrees hclosing hfirst operator plain
      uses).good hrun⟩

/-- All the further branches of a conditional are read carefully. -/
theorem alternatives_careful (hstatement : StatementsCareful tokens depth) :
    ∀ (bound : List Token) {d : Draft} {Γ : Context} {ts : List Token}, d.Agrees Γ →
      Γ.modules ≠ [] → (∀ t ∈ ts, t ∈ tokens) → (Token.first ts).kind ∈ closers →
      ts.length ≤ bound.length →
      Careful tokens (alternatives (statement depth) depth closers bound (d.before ts))
        fun places d' => ∃ used rest trees Γ', ts = used ++ rest ∧
          (Token.first rest).kind ∈ [Token.Kind.elseWord, .endWord] ∧
          Written .read .alternatives Γ used trees Γ' ∧
          LaysEach d rest Γ' trees places d' := by
  intro bound
  induction bound with
  | nil =>
    intro d Γ ts _ _ _ hfirst hbound
    cases List.length_eq_zero_iff.mp (Nat.le_zero.mp hbound)
    exact absurd hfirst (by decide)
  | cons b bound ih =>
    intro d Γ ts hagrees hopen hts hfirst hbound
    have hread : Careful tokens
        (alternatives (statement depth) depth closers (b :: bound) (d.before ts)) fun _ _ =>
        ∃ used rest trees Γ', ts = used ++ rest ∧
          (Token.first rest).kind ∈ [Token.Kind.elseWord, .endWord] ∧
          Written .read .alternatives Γ used trees Γ' := by
      rw [alternatives, sees_bind]
      by_cases hsees : Token.firstIs [.elseIfWord] (d.before ts).ahead = true
      · rw [if_pos hsees]
        refine guarded_careful (by decide) hagrees hopen hts depth ?_
        rintro opening us guard ts₃ e rfl head condition mark
        refine (furtherBranch_careful hstatement (.elseIf e) (fun _ h => h) hagrees hopen
          trivial (hagrees.uses hopen condition) fun t ht => hts t (by simp [ht])).bind ?_
        rintro i d₁ ⟨used, ts₄, trees, Γ₁, rfl, hclosing, inside, h₁⟩
        rw [← Draft.before_of_ahead h₁.ahead]
        refine (ih h₁.agrees (by rwa [inside.modules]) (fun t ht => hts t (by simp [ht]))
          hclosing ?_).bind ?_
        · simp only [List.length_cons, List.length_append] at hbound
          omega
        · rintro places d₂ ⟨vs, rest, more, Γ', rfl, hrest, further, -⟩
          exact ⟨_, rest, _, Γ', by simp, hrest,
            .alternative head condition mark inside further⟩
      · rw [if_neg hsees]
        refine ⟨[], ts, [], Γ, rfl, ?_, .noAlternative⟩
        refine (List.mem_cons.mp hfirst).resolve_left fun heq => hsees ?_
        exact List.contains_iff_mem.mpr (List.mem_singleton.mpr heq)
    refine hread.imp ?_
    rintro places d' hrun ⟨used, rest, trees, Γ', rfl, hrest, written⟩
    exact ⟨used, rest, trees, Γ', rfl, hrest, written,
      (written.laid hopen depth d rest hagrees (b :: bound) hrest hbound).good hrun⟩

/-- A conditional is read carefully if statements one level down are. -/
theorem branch_careful (hstatement : StatementsCareful tokens depth) (hagrees : d.Agrees Γ)
    (hopen : Γ.modules ≠ []) (hts : ∀ t ∈ ts, t ∈ tokens) :
    Careful tokens (branch (statement depth) depth (d.before ts)) fun _ _ =>
      ReadAs Γ ts := by
  rw [branch_eq]
  refine guarded_careful (by decide) hagrees hopen hts depth ?_
  rintro opening us guard ts₃ e rfl head condition mark
  refine (body_careful hstatement _ (fun _ h => h) hagrees hopen
    fun t ht => hts t (by simp [ht])).bind ?_
  rintro _ d₁ ⟨body, ts₄, nested, Γ₁, start, rfl, hclosing, inside, rfl, h₁⟩
  rw [get_bind, ← Draft.before_of_ahead h₁.ahead]
  have hopen₁ : Γ₁.modules ≠ [] := by rwa [inside.modules]
  refine (alternatives_careful hstatement ts₄ h₁.agrees hopen₁
    (fun t ht => hts t (by simp [ht])) hclosing (Nat.le_refl _)).bind ?_
  rintro places d₂ ⟨others, ts₅, trees, Γ₂, rfl, hrest, further, h₂⟩
  have hopen₂ : Γ₂.modules ≠ [] := by rwa [further.modules]
  have hend : ∀ {d₃ : Draft} {final ts₆ : List Token} (fallback : Option (Tree Operator))
      {Γ' : Context} (place : Option Nat), ts₅ = final ++ ts₆ →
      Written .read .fallback Γ₂ final fallback.toList Γ' →
      Careful tokens (branchTail { operator := .branch e, links := { child := start } } places
          place (d₃.before ts₆)) fun _ _ =>
        ReadAs Γ (opening :: (us ++ guard :: (body ++ (others ++ ts₅)))) := by
    intro d₃ final ts₆ fallback Γ' place hsplit otherwise
    subst hsplit
    unfold branchTail
    refine (closingWord_careful (by decide) ts₆).bind ?_
    rintro _ _ ⟨closing, rest, rfl, last, rfl⟩
    exact ⟨_, rest, _, _, by simp,
      .branch head condition mark inside further otherwise last⟩
  rw [sees_bind, h₂.ahead]
  by_cases hsees : Token.firstIs [.elseWord] ts₅ = true
  · rw [if_pos hsees, ← Draft.before_of_ahead h₂.ahead]
    refine (Careful.take (by decide) ts₅).bind ?_
    rintro word _ ⟨ts₆, rfl, hword, rfl⟩
    refine (furtherBranch_careful hstatement .elseBranch (by decide) h₂.agrees hopen₂
      trivial trivial fun t ht => hts t (by simp [ht])).bind ?_
    rintro place d₃ ⟨final, ts₇, more, Γ', rfl, -, fallback, h₃⟩
    rw [← Draft.before_of_ahead h₃.ahead]
    exact hend (some _) (some place) (List.cons_append ..).symm (.fallback hword fallback)
  · rw [if_neg hsees, ← Draft.before_of_ahead h₂.ahead]
    exact hend none none rfl .noFallback

/-- Statements are read carefully, at every depth. -/
theorem statement_careful (tokens : List Token) : ∀ depth, StatementsCareful tokens depth
  | 0, _, _, _, _, _, _ => trivial
  | depth + 1, d, Γ, ts, hagrees, hopen, hts => by
    have ih := statement_careful tokens depth
    have hread : Careful tokens (statement (depth + 1) (d.before ts)) fun _ _ =>
        ReadAs Γ ts := by
      rw [statement_eq]
      show Careful tokens (statementFor depth (Token.first ts) (Token.first ts).kind
        (d.before ts)) _
      cases (Token.first ts).kind with
      | whileWord => exact loop_careful ih hagrees hopen hts
      | ifWord => exact branch_careful ih hagrees hopen hts
      | variableWord => exact declaration_careful hagrees hopen hts
      | letWord => exact assignment_careful hagrees hopen hts
      | inputWord => exact input_careful hagrees hopen
      | outputWord => exact output_careful hagrees hopen hts
      | callWord => exact call_careful hagrees hopen hts
      | returnWord => exact giveBack_careful hagrees hopen hts
      | _ => trivial
    refine hread.imp ?_
    rintro node d' hrun ⟨used, rest, tree, Γ', rfl, written⟩
    exact ⟨used, rest, tree, Γ', rfl, written,
      (written.laid hopen (depth + 1) d rest hagrees tree rfl).good hrun⟩

/-! ## Functions and classes

Their headers are read like lists of names.  What is declared twice is refused by the tables,
and by the rules for the same reason. -/

/-- The end of a function or a class is read carefully, with the name that is due. -/
theorem closingName_careful (name : String) (ts : List Token) :
    Careful tokens (closingName name (d.before ts)) fun _ d' =>
      ∃ closing rest, ts = closing ++ rest ∧ Closes name closing ∧ d' = d.before rest := by
  unfold closingName
  refine (Careful.take (by decide) ts).bind ?_
  rintro ending _ ⟨ts₁, rfl, first, rfl⟩
  refine (Careful.take (by decide) ts₁).bind ?_
  rintro t _ ⟨ts₂, rfl, word, rfl⟩
  by_cases hname : t.text ≠ name
  · rw [if_pos hname]
    trivial
  · rw [if_neg hname]
    refine (Careful.take (by decide) ts₂).bind ?_
    rintro dot _ ⟨rest, rfl, last, rfl⟩
    exact ⟨[ending, t, dot], rest, rfl, .mk first word (Decidable.not_not.mp hname) last, rfl⟩

/-- A function behind its header is read carefully. -/
theorem functionRest_careful {place : Place} {f : FunctionDeclaration}
    (hagrees : d.Agrees Γ) (hopen : Γ.modules ≠ []) (hplace : place.Exists Γ)
    (hvars : f.vars.names = []) (hts : ∀ t ∈ ts, t ∈ tokens) :
    Careful tokens (functionRest (place.entry Γ) f (d.before ts)) fun _ _ =>
      ∃ body nested Γ' closing rest, ts = body ++ (closing ++ rest) ∧
        f.name ∉ (Γ.functionsOf place).map Prod.fst ∧
        (f.parameters.map Parameter.name).Nodup ∧
        Written .read .body (Γ.enter place f.signature) body nested Γ' ∧
        Closes f.name closing := by
  unfold functionRest
  by_cases htaken : f.name ∈ (Γ.functionsOf place).map Prod.fst
  · rw [bind_of_error ((hagrees.before ts).declareFunction_taken hopen hplace htaken)]
    trivial
  obtain ⟨d₁, hdeclare, ⟨distinct, d₂, hparameters, hagrees₂, -, hahead₂, -⟩ |
    ⟨-, kind, name, hrefused⟩⟩ := opens_function (hagrees.before ts) hopen hplace hvars htaken
  · have hopen₁ : (Γ.enter place f.signature).modules ≠ [] := by rwa [Context.enter_modules]
    have hahead : d₂.ahead = ts := hahead₂
    rw [bind_of_run hdeclare, modify_bind, bind_of_run hparameters,
      ← Draft.before_of_ahead hahead]
    refine (body_careful (statement_careful tokens nestingLimit) _ (by decide) hagrees₂
      hopen₁ hts).bind ?_
    rintro _ d₃ ⟨body, ts₁, nested, Γ', child, rfl, -, inside, rfl, h₃⟩
    have hahead₃ := (closeFunction_kept d₃ Γ.signatures.length child).2.1
    rw [modify_bind, ← Draft.before_of_ahead (hahead₃.trans h₃.ahead)]
    refine (closingName_careful f.name ts₁).bind ?_
    rintro _ _ ⟨closing, rest, rfl, last, rfl⟩
    exact ⟨body, nested, Γ', closing, rest, rfl, htaken, distinct, inside, last⟩
  · rw [bind_of_run hdeclare, modify_bind, bind_of_error hrefused]
    trivial

/-- A function or a method is read carefully. -/
theorem function_careful (place : Place) {moduleName : String} (hagrees : d.Agrees Γ)
    (hopen : Γ.modules ≠ []) (hplace : place.Exists Γ)
    (hmodule : moduleName = Γ.modules.getLast?.getD "") (hts : ∀ t ∈ ts, t ∈ tokens) :
    Careful tokens (function (place.entry Γ) place.owner moduleName (d.before ts))
      fun node d' => ∃ used rest tree Γ', ts = used ++ rest ∧
        FunctionWritten .read place Γ used tree Γ' ∧
        LaysTree (some place) d rest Γ' tree node d' := by
  have hread : Careful tokens
      (function (place.entry Γ) place.owner moduleName (d.before ts)) fun _ _ =>
      ∃ used rest tree Γ', ts = used ++ rest ∧
        FunctionWritten .read place Γ used tree Γ' := by
    unfold function
    refine (Careful.take (by decide) ts).bind ?_
    rintro name _ ⟨ts₁, rfl, word, rfl⟩
    refine (Careful.read (.parenthesised .parameter) (parenthesised_sound parameter_sound)
      fun t ht => hts t (by simp [ht])).bind ?_
    rintro parameters _ ⟨list, ts₂, rfl, header, rfl⟩
    have hend : ∀ {type ts₃ : List Token} {result : Option DeclaredType},
        Optionally (Behind .colon (TypeWritten .read)) type result → ts₂ = type ++ ts₃ →
        Careful tokens (functionRest (place.entry Γ)
          { name := name.text, owner := place.owner, parameters, result,
            module := moduleName } (d.before ts₃)) fun _ _ =>
          ∃ used rest tree Γ', name :: (list ++ ts₂) = used ++ rest ∧
            FunctionWritten .read place Γ used tree Γ' := by
      rintro type ts₃ result gives rfl
      refine (functionRest_careful hagrees hopen hplace rfl
        fun t ht => hts t (by simp [ht])).imp ?_
      rintro _ _ - ⟨body, nested, Γ', closing, rest, rfl, fresh, distinct, inside, last⟩
      subst hmodule
      exact ⟨_, rest, _, _, by simp, .mk word header gives fresh distinct inside last⟩
    rw [sees_bind]
    by_cases hsees : Token.firstIs [.colon] (d.before ts₂).ahead = true
    · rw [if_pos hsees]
      refine (Careful.take (by decide) ts₂).bind ?_
      rintro colon _ ⟨ts₃, rfl, mark, rfl⟩
      refine (Careful.read .declaredType declaredType_sound
        fun t ht => hts t (by simp [ht])).bind ?_
      rintro type _ ⟨us, ts₄, rfl, written, rfl⟩
      exact hend (.present (.mk mark written)) (List.cons_append ..).symm
    · rw [if_neg hsees]
      exact hend .absent rfl
  refine hread.imp ?_
  rintro node d' hrun ⟨used, rest, tree, Γ', rfl, written⟩
  exact ⟨used, rest, tree, Γ', rfl, written,
    (function_gets written hagrees hopen hplace hmodule).good hrun⟩

/-- The methods of a class are read carefully, from wherever the next one will be
attached. -/
theorem methods_careful {π : Type} {nest : π → Nat → Builder π} {name moduleName : String}
    {number : Nat} :
    ∀ (bound : List Token) {d : Draft} {Γ : Context} {ts : List Token}
      (owner : π) {previous : Option Nat}, d.Agrees Γ → Γ.modules ≠ [] →
      number < Γ.methods.length → moduleName = Γ.modules.getLast?.getD "" →
      (∀ t ∈ ts, t ∈ tokens) → Vacant nest d owner previous → ts.length ≤ bound.length →
      Careful tokens (methods nest number name moduleName bound owner previous (d.before ts))
        fun _ d' => ∃ used rest trees Γ', ts = used ++ rest ∧
          MethodsWritten .read (.classOf name number) Γ used trees Γ' ∧ d'.ahead = rest := by
  intro bound
  induction bound with
  | nil =>
    intro d Γ ts owner previous _ _ _ _ _ _ _
    exact ⟨[], ts, [], Γ, rfl, .done, rfl⟩
  | cons b bound ih =>
    intro d Γ ts owner previous hagrees hopen hplace hmodule hts hvacant hbound
    by_cases hsees : Token.firstIs [.methodWord] (d.before ts).ahead = true
    · rw [methods_next hsees]
      refine (Careful.take (by decide) ts).bind ?_
      rintro opening _ ⟨ts₁, rfl, head, rfl⟩
      have hfunction : Careful tokens
          (function (.classOf number) (some name) moduleName (d.before ts₁)) _ :=
        function_careful (.classOf name number) hagrees hopen hplace hmodule
          fun t ht => hts t (by simp [ht])
      refine hfunction.bind ?_
      rintro node d₁ ⟨used, ts₂, tree, Γ₁, rfl, written, h₁⟩
      obtain ⟨hmodules, hmethods⟩ := written.kept
      refine attach_careful h₁ hvacant fun owner previous hagrees₂ hvacant₂ => ?_
      refine (ih owner hagrees₂ (hmodules ▸ hopen) (hmethods ▸ hplace) (hmodules ▸ hmodule)
        (fun t ht => hts t (by simp [ht])) hvacant₂ ?_).imp ?_
      · simp only [List.length_append, List.length_cons] at hbound
        omega
      · rintro _ d' - ⟨us, rest, trees, Γ', rfl, members, hahead⟩
        exact ⟨opening :: used ++ us, rest, tree :: trees, Γ', by simp,
          .next head written members, hahead⟩
    · rw [methods, sees_bind, if_neg hsees]
      exact ⟨[], ts, [], Γ, rfl, .done, rfl⟩

/-- A class is read carefully, with its methods. -/
theorem classDeclaration_careful {m : ModuleDeclaration} (hagrees : d.Agrees Γ)
    (hopen : Γ.modules ≠ []) (hm : d.program.modules[Γ.modules.length - 1]? = some m)
    (hopened : d.openModule? = some m) (hname : m.name = Γ.modules.getLast?.getD "")
    (hts : ∀ t ∈ ts, t ∈ tokens) :
    Careful tokens (classDeclaration (Γ.modules.length - 1) m (d.before ts)) fun _ _ =>
      ∃ used rest tree Γ', ts = used ++ rest ∧ ItemWritten .read Γ used tree Γ' := by
  unfold classDeclaration
  refine (Careful.take (by decide) ts).bind ?_
  rintro opening _ ⟨ts₁, rfl, head, rfl⟩
  refine (Careful.take (by decide) ts₁).bind ?_
  rintro name _ ⟨ts₂, rfl, word, rfl⟩
  rw [get_bind]
  dsimp only
  by_cases htaken : name.text ∈ Γ.classes.map Prod.fst
  · show Careful tokens ((m.classes.declare name.text (d.before ts₂).program.classes.size
      >>= fun p => Except.ok (p, d.before ts₂)) >>= _) _
    rw [hagrees.openClass_taken hopened htaken]
    trivial
  · obtain ⟨classes, hdeclare, hagrees₁⟩ := hagrees.openClass hopen hm hopened htaken
    have hlift : (liftM (m.classes.declare name.text
        (d.before ts₂).program.classes.size) : Builder (Table Nat)) (d.before ts₂) =
        .ok (classes, d.before ts₂) := lift_ok.mpr ⟨hdeclare, rfl⟩
    have hsize : (d.before ts₂).program.classes.size = Γ.methods.length :=
      hagrees.size_classes
    have hplace : Γ.methods.length < (Γ.openClass name.text).methods.length := by
      show _ < (Γ.methods ++ [[]]).length
      rw [List.length_append]
      exact Nat.lt_succ_self _
    rw [bind_of_run hlift, set_bind, get_bind, hsize]
    refine (methods_careful ts₂ _ hagrees₁ hopen hplace hname
      (fun t ht => hts t (by simp [ht])) (Vacant.loose rfl) (Nat.le_refl _)).bind ?_
    rintro _ d₁ ⟨used, ts₃, trees, Γ', rfl, members, hahead⟩
    rw [← Draft.before_of_ahead hahead]
    refine (closingName_careful name.text ts₃).bind ?_
    rintro _ _ ⟨closing, rest, rfl, last, rfl⟩
    exact ⟨_, rest, _, Γ', by simp, .classDeclaration hopen head word htaken members last⟩

/-! ## Items

The induction is on a list that is as long as the tokens: every item takes at least one of
them, so it never runs out before the tokens do. -/

/-- A header is read carefully. -/
theorem header_careful (hfirst : (Token.first ts).kind = .moduleWord) :
    Careful tokens (item (d.before ts)) fun _ _ => ∃ opening name semicolon rest,
      ts = opening :: name :: semicolon :: rest ∧ opening.kind = .moduleWord ∧
        name.kind = .word ∧ semicolon.kind = .semicolon := by
  have hitem : item (d.before ts) = moduleHeader (d.before ts) := by
    unfold item
    rw [get_bind]
    exact congrFun (if_pos hfirst) _
  rw [hitem]
  unfold moduleHeader
  refine (Careful.take (by decide) ts).bind ?_
  rintro opening _ ⟨ts₁, rfl, head, rfl⟩
  refine (Careful.take (by decide) ts₁).bind ?_
  rintro name _ ⟨ts₂, rfl, word, rfl⟩
  refine (Careful.take (by decide) ts₂).bind ?_
  rintro semicolon _ ⟨rest, rfl, last, rfl⟩
  exact ⟨opening, name, semicolon, rest, rfl, head, word, last⟩

/-- Every other item is read carefully. -/
theorem item_careful (hagrees : d.Agrees Γ) (hopen : Γ.modules ≠ [])
    (hts : ∀ t ∈ ts, t ∈ tokens) (hfirst : (Token.first ts).kind ≠ .moduleWord) :
    Careful tokens (item (d.before ts)) fun node d' =>
      ∃ used rest tree Γ', ts = used ++ rest ∧ ItemWritten .read Γ used tree Γ' ∧
        (∀ name number, tree.operator ≠ .module name number) ∧
        LaysTree (some .module) d rest Γ' tree node d' := by
  obtain ⟨m, hmodule, hfound, hopened, hname, -⟩ := hagrees.openModule hopen
  have hread : Careful tokens (item (d.before ts)) fun _ _ =>
      ∃ used rest tree Γ', ts = used ++ rest ∧ ItemWritten .read Γ used tree Γ' := by
    have hitem : item (d.before ts) =
        itemFor (Γ.modules.length - 1) m (Token.first ts).kind (d.before ts) :=
      item_eq hmodule hopened hfirst
    have hstatement : Careful tokens (statement nestingLimit (d.before ts)) fun _ _ =>
        ∃ used rest tree Γ', ts = used ++ rest ∧ ItemWritten .read Γ used tree Γ' := by
      refine (statement_careful tokens nestingLimit hagrees hopen hts).imp ?_
      rintro _ _ - ⟨used, rest, tree, Γ', rfl, written, -⟩
      exact ⟨used, rest, tree, Γ', rfl, .statement hopen written⟩
    rw [hitem]
    cases (Token.first ts).kind with
    | beginWord =>
      refine (Careful.take (by decide) ts).bind ?_
      rintro opening _ ⟨rest, rfl, head, rfl⟩
      exact ⟨[opening], rest, _, _, rfl, .beginning hopen head⟩
    | functionWord =>
      refine (Careful.take (by decide) ts).bind ?_
      rintro opening _ ⟨ts₁, rfl, head, rfl⟩
      have hfunction : Careful tokens
          (function (.module (Γ.modules.length - 1)) none m.name (d.before ts₁)) _ :=
        function_careful .module hagrees hopen trivial hname
          fun t ht => hts t (by simp [ht])
      refine hfunction.imp ?_
      rintro _ _ - ⟨used, rest, tree, Γ', rfl, written, -⟩
      exact ⟨opening :: used, rest, tree, Γ', rfl, .function hopen head written⟩
    | classWord => exact classDeclaration_careful hagrees hopen hfound hopened hname hts
    | _ => exact hstatement
  refine hread.imp ?_
  rintro node d' hrun ⟨used, rest, tree, Γ', rfl, written⟩
  obtain ⟨opening, name, semicolon, rfl, head, -⟩ | ⟨-, hother, -⟩ := written.kinds
  · exact absurd head hfirst
  · exact ⟨used, rest, tree, Γ', rfl, written, hother,
      (item_gets written hother hagrees).good hrun⟩

/-- The items of a program are read and hung carefully, from whatever hole there is. -/
theorem items_careful :
    ∀ (bound : List Token) {d : Draft} {Γ : Context} {ts : List Token}, d.Agrees Γ →
      Γ.opened = none →
      (Γ.modules ≠ [] → ∃ place asChild node, d.Hole place asChild node) →
      (∀ t ∈ ts, t ∈ tokens) → ts.length ≤ bound.length →
      Careful tokens (items bound (d.before ts)) fun _ _ =>
        ∃ used rest trees Γ', ts = used ++ rest ∧ ItemsWritten .read Γ used trees Γ' ∧
          Ends rest := by
  intro bound
  induction bound with
  | nil =>
    intro d Γ ts _ _ _ _ hbound
    cases List.length_eq_zero_iff.mp (Nat.le_zero.mp hbound)
    exact ⟨[], [], [], Γ, rfl, .done, .inl rfl⟩
  | cons b bound ih =>
    intro d Γ ts hagrees hclosed hhole hts hbound
    by_cases hend : Token.atEnd (d.before ts).ahead = true
    · rw [items, get_bind, if_pos hend]
      exact ⟨[], ts, [], Γ, rfl, .done, .inl hend⟩
    by_cases hword : Token.firstIs [.endWord] (d.before ts).ahead = true
    · have hends : Ends ts := .inr (List.mem_singleton.mp (List.contains_iff_mem.mp hword))
      obtain ⟨ahead, hrun⟩ := items_ends (d := d) hends (b :: bound)
      rw [hrun]
      exact ⟨[], ts, [], Γ, rfl, .done, hends⟩
    rw [items_step hend hword]
    by_cases hfirst : (Token.first ts).kind = .moduleWord
    · refine (header_careful hfirst).bind_run ?_
      rintro ⟨-, -, opening, name, semicolon, ts₁, rfl, head, word, last⟩
      rw [header_bind head word last]
      have hstart : (d.startModule name.text).Agrees (Γ.openModule name.text) :=
        hagrees.startModule hclosed _
      have hinside : ∀ t ∈ ts₁, t ∈ tokens := fun t ht => hts t (by simp [ht])
      have hlength : ts₁.length ≤ bound.length := by
        simp only [List.length_cons] at hbound
        omega
      refine (ih hstart hclosed (fun _ => ⟨_, _, _, hole_startModule d name.text⟩)
        hinside hlength).imp ?_
      rintro _ _ - ⟨used, rest, trees, Γ', rfl, more, hends⟩
      exact ⟨[opening, name, semicolon] ++ used, rest, _, Γ', rfl,
        .next (.header head word last) more, hends⟩
    by_cases hopen : Γ.modules = []
    · -- nothing but a header can be the first item
      have hmodule := hagrees.module
      rw [if_pos hopen] at hmodule
      have hrefused : item (d.before ts) = .error (.parse (.moduleExpected (Token.first ts))) := by
        unfold item
        rw [get_bind]
        show (if (Token.first ts).kind = .moduleWord then _ else _ : Builder _) _ = _
        rw [if_neg hfirst, show (d.before ts).module = none from hmodule]
        rfl
      rw [bind_of_error hrefused]
      trivial
    · obtain ⟨place, asChild, before, hole⟩ := hhole hopen
      refine (item_careful hagrees hopen hts hfirst).bind ?_
      rintro node d₁ ⟨used, ts₁, tree, Γ₁, rfl, written, hother, h₁⟩
      obtain ⟨_, _, _, _, _, _, _, htree, -⟩ | ⟨-, -, hleaf⟩ := written.kinds
      · exact absurd (congrArg Tree.operator htree) (hother _ _)
      obtain ⟨t, us, hused, -⟩ := written.starts
      obtain ⟨block, forest, hrun, hagrees₂, hole₂, -⟩ :=
        hang_item hole h₁ hother hleaf fun _ => items bound
      rw [hrun]
      refine (ih hagrees₂ (written.closed hclosed) (fun _ => ⟨_, _, _, hole₂⟩)
        (fun t ht => hts t (by simp [ht])) ?_).imp ?_
      · simp only [List.length_append, List.length_cons, hused] at hbound
        omega
      · rintro _ _ - ⟨us, rest, trees, Γ', rfl, more, hends⟩
        exact ⟨used ++ us, rest, tree :: trees, Γ', by simp, .next written more, hends⟩

end

end Builder

namespace Program

variable {tokens : List Token}

/-- What is built from tokens was written by the rules, and what is not built is
refused for a foreseen reason. -/
theorem items_outcome (tokens : List Token) :
    Builder.Careful tokens (Builder.items tokens { ahead := tokens }) fun _ d =>
      ∃ trees Γ, ProgramWritten .read tokens trees Γ ∧ Built d trees Γ := by
  have hread := Builder.items_careful tokens (Draft.Agrees.fresh tokens) rfl
    (fun hopen => absurd rfl hopen) (fun t ht => ht) (Nat.le_refl _)
  refine Builder.Careful.imp hread ?_
  rintro _ d hrun ⟨used, rest, trees, Γ, hsplit, hitems, hends⟩
  have hwritten : ProgramWritten .read tokens trees Γ := ⟨used, rest, hsplit, hitems, hends⟩
  exact ⟨trees, Γ, hwritten, hwritten.built.good hrun⟩

/-- A program that was built is what the rules say. -/
theorem ofTokens_built {p : Program} (h : ofTokens tokens = .ok p) :
    ∃ d trees Γ, d.program = p ∧ ProgramWritten .read tokens trees Γ ∧ Built d trees Γ := by
  have houtcome := items_outcome tokens
  unfold ofTokens draft at h
  change (Builder.items tokens { ahead := tokens } >>= fun r => pure r.2).map _ = _ at h
  cases hrun : Builder.items tokens { ahead := tokens } with
  | error fault =>
    rw [hrun] at h
    cases h
  | ok r =>
    rw [hrun] at h houtcome
    cases h
    obtain ⟨trees, Γ, hwritten, hbuilt⟩ := houtcome
    exact ⟨r.2, trees, Γ, rfl, hwritten, hbuilt⟩

/-- What is not built is refused for a foreseen reason. -/
theorem ofTokens_foreseen {fault : Fault} (h : ofTokens tokens = .error fault) :
    fault.Foreseen tokens := by
  have houtcome := items_outcome tokens
  unfold ofTokens draft at h
  change (Builder.items tokens { ahead := tokens } >>= fun r => pure r.2).map _ = _ at h
  cases hrun : Builder.items tokens { ahead := tokens } with
  | error fault =>
    rw [hrun] at h houtcome
    cases h
    exact houtcome
  | ok r =>
    rw [hrun] at h
    cases h

end Program

end Pseudocode
