import Pseudocode.Proofs.Grammar

/-!
# What is derived is read

The other direction of the grammar: tokens that are derived as an expression of
a level are read as that expression, if the token behind them is not one that
the level goes on with (`Stops`).  That is needed, for the reader takes as much as it
can: before a `+` an additive expression is not at its end.

The induction follows the rules.  For a row it needs
more than "the row is read": read up to any point of the row, the reader stands
in the loop for the rest with the expression derived so far (`Unrolls`), since
the rules grow a row on its right and the reader starts from its left.

> `rowRest_round`: where an operator is ahead, the loop takes it and one operand more.
>
> `Unrolls.chained`: so a row that unrolls, and one operand more, is a row that unrolls.
>
> `Unrolls.readsAs`: and where the level stops, the loop ends with what it has.

The other readers choose by the token ahead, and which token an expression can start with
is known from its rules (`Derives.first_mem`): an operand, or the minus before one.

Nesting is counted in tokens: as many levels as there are tokens are enough, because
whatever is nested stands between at least two of them.
-/

namespace Pseudocode.Grammar

open Reader Pseudocode.Expr

variable {names : Names} {depth : Nat} {tier : Tier}

/-- Whether what follows does not go on with an expression of a level. -/
def Stops (tier : Tier) (more : List Token) : Prop :=
  (Token.first more).kind ∉ tier.continuing

/-- The reader of a level over expressions nested at most so deep. -/
abbrev readerAt (names : Names) (depth : Nat) (tier : Tier) : Reader Expr :=
  tier.reader names (expression names depth)

/-- Tokens are read as an expression, and what follows them is left. -/
def ReadsAs (names : Names) (depth : Nat) (tier : Tier) (ts : List Token)
    (e : Expr) : Prop :=
  ∀ more, Stops tier more → readerAt names depth tier (ts ++ more) = .ok (e, more)

/-- Behind the tokens of a row, its reader is in the loop for the rest. -/
def Unrolls (names : Names) (depth : Nat) (tier : Tier) (ts : List Token)
    (e : Expr) : Prop :=
  ∀ more, Stops tier.next more → ∃ bound : List Token,
    more.length ≤ bound.length ∧
    readerAt names depth tier (ts ++ more) =
      rowRest tier.operators tier.joinSpelled (readerAt names depth tier.next) bound e
        more

/-- What the next tighter level goes on with, this one goes on with, too. -/
theorem next_continuing_subset :
    ∀ kind ∈ tier.next.continuing, kind ∈ tier.continuing := by
  cases tier <;> decide

/-- A level goes on with its own operators. -/
theorem operators_subset_continuing :
    ∀ kind ∈ tier.operators, kind ∈ tier.continuing := by
  cases tier <;> decide

/-- The next tighter level does not go on with the operators of this one. -/
theorem operators_not_continuing_next :
    ∀ kind ∈ tier.operators, kind ∉ tier.next.continuing := by
  cases tier <;> decide

/-- Where a level stops, the tighter ones do. -/
theorem Stops.next {more : List Token} (h : Stops tier more) :
    Stops tier.next more :=
  fun hmem => h (next_continuing_subset _ hmem)

/-- A token of another kind is not seen. -/
theorem firstIs_of_not_mem {kinds : List Token.Kind} {ts : List Token}
    (h : (Token.first ts).kind ∉ kinds) : Token.firstIs kinds ts = false := by
  unfold Token.firstIs
  rw [List.contains_eq_mem]
  exact decide_eq_false h

/-- What follows a level is none of its operators. -/
theorem Stops.firstIs_operators {more : List Token} (h : Stops tier more) :
    Token.firstIs tier.operators more = false :=
  firstIs_of_not_mem fun hmem => h (operators_subset_continuing _ hmem)

/-- An operator of a level does not go on with the next tighter one. -/
theorem stops_of_operator {op : Token} (h : op.kind ∈ tier.operators)
    (rest : List Token) : Stops tier.next (op :: rest) :=
  operators_not_continuing_next _ h

/-- A token that is ahead is seen. -/
theorem firstIs_cons {kinds : List Token.Kind} {t : Token} (h : t.kind ∈ kinds)
    (rest : List Token) : Token.firstIs kinds (t :: rest) = true := by
  unfold Token.firstIs
  rw [List.contains_eq_mem]
  exact decide_eq_true h

/-- Only the token ahead is seen. -/
theorem firstIs_cons_of_not {kinds : List Token.Kind} {t : Token}
    (h : t.kind ∉ kinds) (rest : List Token) :
    Token.firstIs kinds (t :: rest) = false :=
  firstIs_of_not_mem h

/-! ## Rows -/

/-- The loop for the rest of a row ends where the row stops. -/
theorem rowRest_stops {operand : Reader Expr} {bound more : List Token} {e : Expr}
    (h : Stops tier more) :
    rowRest tier.operators tier.joinSpelled operand bound e more = .ok (e, more) := by
  cases bound with
  | nil => rfl
  | cons b bound =>
    rw [rowRest, bind_ok]
    refine ⟨_, _, rfl, ?_⟩
    -- no operator is ahead
    rw [ite_apply, if_neg (by rw [h.firstIs_operators]; decide)]
    rfl

/-- One round of the loop for the rest of a row. -/
theorem rowRest_round {operand : Reader Expr} {bound more us : List Token}
    {op b : Token} {left right : Expr} (hop : op.kind ∈ tier.operators)
    (hright : operand (us ++ more) = .ok (right, more)) :
    rowRest tier.operators tier.joinSpelled operand (b :: bound) left
        (op :: us ++ more) =
      rowRest tier.operators tier.joinSpelled operand bound
        (tier.joinSpelled op.kind.spelling left right) more := by
  have htake : take tier.operators (op :: us ++ more) = .ok (op, us ++ more) :=
    (take_ok (endOfInput_not_mem_operators tier)).mpr ⟨rfl, hop⟩
  rw [rowRest]
  -- each step of the round is put in: the look ahead, the operator, the operand
  show (if Token.firstIs tier.operators (op :: us ++ more) = true
    then _ else _ : Reader Expr) _ = _
  rw [List.cons_append, if_pos (firstIs_cons hop _)]
  show (take tier.operators (op :: (us ++ more)) >>= fun p => _) = _
  rw [List.cons_append] at htake
  rw [htake]
  show (operand (us ++ more) >>= fun p => _) = _
  rw [hright]
  rfl

/-- A row that can go on is read where it does not. -/
theorem Unrolls.readsAs {ts : List Token} {e : Expr}
    (h : Unrolls names depth tier ts e) : ReadsAs names depth tier ts e := by
  intro more hstops
  obtain ⟨bound, -, hbound⟩ := h more hstops.next
  rw [hbound, rowRest_stops hstops]

/-- A first operand is a row. -/
theorem unrolls_of_next {ts : List Token} {e : Expr}
    (hchains : tier.chains = true)
    (h : ReadsAs names depth tier.next ts e) : Unrolls names depth tier ts e := by
  intro more hstops
  refine ⟨more, Nat.le_refl _, ?_⟩
  rw [readerAt, reader_of_chains hchains, row]
  show (readerAt names depth tier.next (ts ++ more) >>= fun p => _) = _
  rw [h more hstops]
  rfl

/-- A row with one more operand is a row. -/
theorem Unrolls.chained {ts us : List Token} {op : Token} {left right : Expr}
    (h : Unrolls names depth tier ts left) (hop : op.kind ∈ tier.operators)
    (hright : ReadsAs names depth tier.next us right) :
    Unrolls names depth tier (ts ++ op :: us)
      (tier.joinSpelled op.kind.spelling left right) := by
  intro more hstops
  obtain ⟨bound, hlength, hbound⟩ :=
    h (op :: us ++ more) (stops_of_operator hop _)
  -- the bound is at least as long as the tokens ahead, so there is one more round
  cases bound with
  | nil => simp at hlength
  | cons b bound =>
    refine ⟨bound, ?_, ?_⟩
    · simp only [List.cons_append, List.length_cons, List.length_append] at hlength
      omega
    · rw [List.append_assoc, List.cons_append, ← List.cons_append, hbound]
      exact rowRest_round hop (hright more hstops)

/-! ## Operands -/

/-- The kinds of tokens that an expression can start with. -/
def starting : List Token.Kind :=
  [.number, .text, .trueWord, .falseWord, .word, .leftParen, .minus]

/-- What is called is named by a word first. -/
theorem Called.first_word {head : List Token} {name : String} {callee : Callee}
    (h : Called names head name callee) : (Token.first head).kind = .word := by
  cases h with
  | function word found => exact word
  | method first dot word found => exact first

/-- What is called has a name. -/
theorem Called.ne_nil {head : List Token} {name : String} {callee : Callee}
    (h : Called names head name callee) : head ≠ [] := by
  cases h <;> simp

/-- An expression starts with an operand or a minus, an operand without the
minus. -/
theorem Derives.first_mem {number : String → Bool → Value → Prop}
    {ts : List Token} {e : Expr} (h : Derives names number tier ts e) :
    (Token.first ts).kind ∈ starting ∧
      (tier = .primary → (Token.first ts).kind ≠ .minus) := by
  induction h with
  | tighter loose _ ih => exact ⟨ih.1, fun hp => absurd hp loose⟩
  | chained row before _ _ ih _ =>
    rw [first_append before.ne_nil]
    exact ⟨ih.1, by rintro rfl; cases row⟩
  | compared before _ _ ih _ =>
    rw [first_append before.ne_nil]
    exact ⟨ih.1, by simp⟩
  | negative sign => simp [Token.first, sign, starting]
  | negated sign => simp [Token.first, sign, starting]
  | number kind => simp [Token.first, kind, starting]
  | text kind => simp [Token.first, kind, starting]
  | truth kind => simp [Token.first, kind, starting]
  | falsehood kind => simp [Token.first, kind, starting]
  | grouped left => simp [Token.first, left, starting]
  | read word => simp [Token.first, word, starting]
  | slot word => simp [Token.first, word, starting]
  | called head =>
    rw [first_append head.ne_nil, head.first_word]
    decide
  | calledWith head =>
    simp only [List.append_assoc, first_append head.ne_nil, head.first_word]
    decide

/-- An expression in parentheses, brackets or between commas is read if there is
room to nest one level deeper. -/
theorem inner_reads {ts : List Token} {e : Expr}
    (h : ∀ depth, ts.length ≤ depth → ReadsAs names depth .disjunction ts e)
    (hdepth : ts.length < depth) {more : List Token}
    (hstops : Stops .disjunction more) :
    expression names depth (ts ++ more) = .ok (e, more) := by
  cases depth with
  | zero => omega
  | succ depth => exact h depth (by omega) more hstops

/-- Behind an argument there is a comma or the closing parenthesis. -/
theorem stops_behind {closing : Token} (hclosing : closing.kind = .rightParen)
    {more : List (Token × List Token × Expr)} (hcommas : ∀ a ∈ more, a.1.kind = .comma)
    (rest : List Token) : Stops .disjunction (behind more ++ closing :: rest) := by
  cases more with
  | nil =>
    show closing.kind ∉ _
    rw [hclosing]
    decide
  | cons a more =>
    show a.1.kind ∉ _
    rw [hcommas a (List.mem_cons_self ..)]
    decide

/-- Each argument behind a comma has at least the comma. -/
theorem length_le_behind (more : List (Token × List Token × Expr)) :
    more.length ≤ (behind more).length := by
  induction more with
  | nil => exact Nat.le_refl 0
  | cons a more ih =>
    simp only [behind, List.flatMap_cons, List.length_cons, List.length_append] at ih ⊢
    omega

/-- Arguments behind commas are read up to the parenthesis that closes them. -/
theorem behindCommas_reads {closing : Token} (hclosing : closing.kind = .rightParen)
    {rest : List Token} :
    ∀ {more : List (Token × List Token × Expr)} {bound : List Token},
      (∀ a ∈ more, a.1.kind = .comma) →
      (∀ a ∈ more, ∀ depth, a.2.1.length ≤ depth →
        ReadsAs names depth .disjunction a.2.1 a.2.2) →
      (behind more).length < depth → more.length ≤ bound.length →
      behindCommas (expression names depth) bound
          (behind more ++ closing :: rest) =
        .ok (more.map (fun a => a.2.2), closing :: rest) := by
  intro more
  induction more with
  | nil =>
    intro bound _ _ _ _
    cases bound with
    | nil => rfl
    | cons b bound =>
      rw [behindCommas, bind_ok]
      refine ⟨_, _, rfl, ?_⟩
      have hnot : Token.firstIs [.comma] (closing :: rest) = false :=
        firstIs_cons_of_not (by rw [hclosing]; decide) _
      rw [ite_apply, if_neg (by rw [show behind [] = [] from rfl,
        List.nil_append, hnot]; decide)]
      rfl
  | cons a more ih =>
    intro bound hcommas hmore hdepth hbound
    obtain ⟨comma, ts, e⟩ := a
    cases bound with
    | nil => simp at hbound
    | cons b bound =>
      have htokens : behind ((comma, ts, e) :: more) = comma :: ts ++ behind more :=
        by simp [behind]
      rw [htokens] at hdepth ⊢
      simp only [List.cons_append, List.append_assoc, List.length_cons,
        List.length_append] at hdepth ⊢
      have hcomma : comma.kind = .comma := hcommas _ (List.mem_cons_self ..)
      have hfurther : ∀ a ∈ more, a.1.kind = .comma :=
        fun a ha => hcommas a (List.mem_cons_of_mem _ ha)
      rw [behindCommas, bind_ok]
      refine ⟨_, _, rfl, ?_⟩
      rw [ite_apply, if_pos (firstIs_cons (by simp [hcomma]) _)]
      simp only [bind_ok, pure_ok]
      refine ⟨comma, _, (take_one_ok (by decide)).mpr ⟨rfl, hcomma⟩, e, _,
        inner_reads (hmore _ (List.mem_cons_self ..))
          (show ts.length < depth by omega) (stops_behind hclosing hfurther rest), _, _,
        ih hfurther (fun a ha => hmore a (List.mem_cons_of_mem _ ha)) (by omega)
          (by simpa using hbound), rfl⟩

/-- No arguments are two parentheses. -/
theorem parenthesised_none {item : Reader Expr} {opening closing : Token}
    (hleft : opening.kind = .leftParen) (hright : closing.kind = .rightParen)
    (rest : List Token) :
    parenthesised item (opening :: closing :: rest) = .ok ([], rest) := by
  rw [parenthesised]
  simp only [bind_ok]
  refine ⟨opening, _, (take_one_ok (by decide)).mpr ⟨rfl, hleft⟩, _, _, rfl, ?_⟩
  rw [ite_apply, if_pos (firstIs_cons (by simp [hright]) _)]
  simp only [bind_ok, pure_ok]
  exact ⟨closing, _, (take_one_ok (by decide)).mpr ⟨rfl, hright⟩, rfl⟩

/-- Arguments in parentheses are read: the first, and one behind each comma. -/
theorem parenthesised_reads {ts : List Token} {e : Expr}
    {more : List (Token × List Token × Expr)} {opening closing : Token}
    (hleft : opening.kind = .leftParen) (hright : closing.kind = .rightParen)
    (hstart : (Token.first ts).kind ∈ starting) (hne : ts ≠ [])
    (hfirst : ∀ depth, ts.length ≤ depth → ReadsAs names depth .disjunction ts e)
    (hcommas : ∀ a ∈ more, a.1.kind = .comma)
    (hmore : ∀ a ∈ more, ∀ depth, a.2.1.length ≤ depth →
      ReadsAs names depth .disjunction a.2.1 a.2.2)
    (hdepth : ts.length + (behind more).length < depth) (rest : List Token) :
    parenthesised (expression names depth)
        (opening :: (ts ++ (behind more ++ closing :: rest))) =
      .ok (e :: more.map (fun a => a.2.2), rest) := by
  -- no expression starts with the closing parenthesis
  have hnot : Token.firstIs [.rightParen] (ts ++ (behind more ++ closing :: rest))
      = false := by
    apply firstIs_of_not_mem
    rw [first_append hne]
    intro hmem
    rw [List.mem_singleton.mp hmem] at hstart
    revert hstart
    decide
  have hbound : more.length ≤ (behind more ++ closing :: rest).length := by
    have hle := length_le_behind more
    rw [List.length_append]
    omega
  rw [parenthesised]
  simp only [bind_ok]
  refine ⟨opening, _, (take_one_ok (by decide)).mpr ⟨rfl, hleft⟩, _, _, rfl, ?_⟩
  rw [ite_apply, if_neg (by rw [hnot]; decide)]
  simp only [bind_ok, get_ok, pure_ok]
  exact ⟨e, _, inner_reads hfirst (by omega) (stops_behind hright hcommas rest), _, _,
    rfl, _, _,
    behindCommas_reads hright hcommas hmore (by omega) hbound, closing, _,
    (take_one_ok (by decide)).mpr ⟨rfl, hright⟩, rfl⟩

/-- A call is read if its arguments are. -/
theorem call_reads {head : List Token} {name : String} {callee : Callee}
    (hhead : Called names head name callee) {inner : Reader Expr} {opening : Token}
    (hleft : opening.kind = .leftParen) {ts rest : List Token} {es : List Expr}
    (h : parenthesised inner (opening :: ts) = .ok (es, rest)) :
    primary names inner (head ++ opening :: ts) =
      .ok (.call name callee es, rest) := by
  rw [primary, bind_ok]
  refine ⟨_, _, rfl, ?_⟩
  rw [first_append hhead.ne_nil, hhead.first_word]
  show named names inner _ = _
  rw [named]
  simp only [bind_ok]
  cases hhead with
  | @function t _ word found =>
    refine ⟨t, opening :: ts, (take_one_ok (by decide)).mpr ⟨rfl, word⟩, _, _,
      rfl, ?_⟩
    rw [ite_apply, if_pos (firstIs_cons (by simp [hleft]) _)]
    simp only [bind_ok, lift_ok, pure_ok]
    exact ⟨callee, _, ⟨found, rfl⟩, es, rest, h, rfl⟩
  | @method owner point t _ first dot word found =>
    refine ⟨owner, point :: t :: opening :: ts,
      (take_one_ok (by decide)).mpr ⟨rfl, first⟩, _, _, rfl, ?_⟩
    -- the point keeps the class from being taken for a function
    rw [ite_apply, if_neg (by
      rw [firstIs_cons_of_not (by rw [dot]; decide)]; decide)]
    rw [bind_ok]
    refine ⟨_, _, seesMethod_ok.mpr ⟨rfl, rfl⟩, ?_⟩
    rw [ite_apply, if_pos (by simp [Token.first, dot, word, hleft])]
    simp only [bind_ok, lift_ok, pure_ok]
    exact ⟨point, _, (take_one_ok (by decide)).mpr ⟨rfl, dot⟩, t, _,
      (take_one_ok (by decide)).mpr ⟨rfl, word⟩, callee, _, ⟨found, rfl⟩, es, rest,
      h, rfl⟩

/-- A word that is a variable is read as it, if neither a call nor an element goes on with
it. -/
theorem read_reads {t : Token} {target : Occurrence} {inner : Reader Expr}
    (word : t.kind = .word) (found : names.resolve t.text = some target)
    {more : List Token} (hstops : Stops .primary more) :
    primary names inner (t :: more) = .ok (.read target, more) := by
  have hnot : ∀ kind ∈ Tier.primary.continuing,
      Token.firstIs [kind] more = false := by
    intro kind hkind
    refine firstIs_of_not_mem fun hmem => hstops ?_
    rw [List.mem_singleton.mp hmem]
    exact hkind
  have hdot : (Token.first more).kind ≠ .dot := by
    intro heq
    apply hstops
    rw [heq]
    decide
  rw [primary, bind_ok]
  refine ⟨_, _, rfl, ?_⟩
  rw [show (Token.first (t :: more)).kind = .word from word]
  show named names inner _ = _
  rw [named]
  simp only [bind_ok]
  refine ⟨t, more, (take_one_ok (by decide)).mpr ⟨rfl, word⟩, _, _, rfl, ?_⟩
  rw [ite_apply, if_neg (by rw [hnot .leftParen (by decide)]; decide), bind_ok]
  refine ⟨_, _, seesMethod_ok.mpr ⟨rfl, rfl⟩, ?_⟩
  rw [ite_apply, if_neg (by simp [hdot])]
  simp only [found, bind_ok]
  refine ⟨_, _, rfl, ?_⟩
  rw [ite_apply, if_neg (by rw [hnot .leftBracket (by decide)]; decide)]
  rfl

/-- A variable and an index in brackets are read as an element of an array. -/
theorem slot_reads {t opening closing : Token} {target : Occurrence}
    {inner : Reader Expr} (word : t.kind = .word)
    (found : names.resolve t.text = some target)
    (hleft : opening.kind = .leftBracket) (hright : closing.kind = .rightBracket)
    {ts rest : List Token} {e : Expr}
    (h : inner ts = .ok (e, closing :: rest)) :
    primary names inner (t :: opening :: ts) = .ok (.slot target e, rest) := by
  rw [primary, bind_ok]
  refine ⟨_, _, rfl, ?_⟩
  rw [show (Token.first (t :: opening :: ts)).kind = .word from word]
  show named names inner _ = _
  rw [named]
  simp only [bind_ok]
  refine ⟨t, opening :: ts, (take_one_ok (by decide)).mpr ⟨rfl, word⟩, _, _, rfl,
    ?_⟩
  rw [ite_apply, if_neg (by
    rw [firstIs_cons_of_not (by rw [hleft]; decide)]; decide), bind_ok]
  refine ⟨_, _, seesMethod_ok.mpr ⟨rfl, rfl⟩, ?_⟩
  rw [ite_apply, if_neg (by simp [Token.first, hleft])]
  simp only [found, bind_ok]
  refine ⟨_, _, rfl, ?_⟩
  rw [ite_apply, if_pos (firstIs_cons (by simp [hleft]) _)]
  simp only [bind_ok, pure_ok]
  exact ⟨opening, ts, (take_one_ok (by decide)).mpr ⟨rfl, hleft⟩, e, _, h, closing,
    rest, (take_one_ok (by decide)).mpr ⟨rfl, hright⟩, rfl⟩

/-- A literal is read by taking its token. -/
theorem literal_reads {t : Token} {v : Value} {inner : Reader Expr}
    {more : List Token}
    (h : (t.kind = .number ∧ Reads t.text false v) ∨
      (t.kind = .text ∧ v = .string t.text) ∨
      (t.kind = .trueWord ∧ v = .boolean true) ∨
      (t.kind = .falseWord ∧ v = .boolean false)) :
    primary names inner (t :: more) = .ok (.literal v, more) := by
  rw [primary, bind_ok]
  refine ⟨_, _, rfl, ?_⟩
  rcases h with ⟨kind, hv⟩ | ⟨kind, rfl⟩ | ⟨kind, rfl⟩ | ⟨kind, rfl⟩
  · simp only [Token.first, kind, bind_ok]
    exact ⟨t, more, (take_one_ok (by decide)).mpr ⟨rfl, kind⟩,
      numberLiteral_ok.mpr ⟨⟨v, hv, rfl⟩, rfl⟩⟩
  all_goals
    simp only [Token.first, kind, bind_ok, pure_ok]
    exact ⟨t, more, (take_one_ok (by decide)).mpr ⟨rfl, kind⟩, rfl⟩

/-- An expression in parentheses is read as what stands in them. -/
theorem grouped_reads {opening closing : Token} {inner : Reader Expr}
    (hleft : opening.kind = .leftParen) (hright : closing.kind = .rightParen)
    {ts rest : List Token} {e : Expr}
    (h : inner ts = .ok (e, closing :: rest)) :
    primary names inner (opening :: ts) = .ok (e, rest) := by
  rw [primary, bind_ok]
  refine ⟨_, _, rfl, ?_⟩
  rw [show (Token.first (opening :: ts)).kind = .leftParen from hleft]
  simp only [bind_ok, pure_ok]
  exact ⟨opening, ts, (take_one_ok (by decide)).mpr ⟨rfl, hleft⟩, e, _, h, closing,
    rest, (take_one_ok (by decide)).mpr ⟨rfl, hright⟩, rfl⟩

/-! ## All levels -/

/-- Without a minus ahead the operand is a primary. -/
theorem unary_of_primary {ts : List Token} {e : Expr}
    (hne : ts ≠ []) (hminus : (Token.first ts).kind ≠ .minus)
    (h : ReadsAs names depth .primary ts e) : ReadsAs names depth .unary ts e := by
  intro more hstops
  show unary names _ _ = _
  rw [unary, bind_ok]
  refine ⟨_, _, rfl, ?_⟩
  have hnot : Token.firstIs [.minus] (ts ++ more) = false := by
    apply firstIs_of_not_mem
    rw [first_append hne]
    exact fun hmem => hminus (List.mem_singleton.mp hmem)
  rw [ite_apply, if_neg (by rw [hnot]; decide)]
  exact h more hstops

/-- Behind a minus the token ahead tells a literal from a changed sign. -/
theorem unary_behind_minus {inner : Reader Expr} {minus : Token}
    (hsign : minus.kind = .minus) (ts : List Token) :
    unary names inner (minus :: ts) =
      (if (Token.first ts).kind = .number && !hasPoint (Token.first ts).text
        then take [.number] >>= fun _ => numberLiteral (Token.first ts) true
        else Expr.sign "-" <$> primary names inner : Reader Expr) ts := by
  have htake : take [.minus] (minus :: ts) = .ok (minus, ts) :=
    (take_one_ok (by decide)).mpr ⟨rfl, hsign⟩
  rw [unary]
  show (if Token.firstIs [.minus] (minus :: ts) = true then _ else _ : Reader Expr) _ = _
  rw [if_pos (firstIs_cons (by simp [hsign]) _)]
  show (take [.minus] (minus :: ts) >>= fun p => _) = _
  rw [htake]
  rfl

/-- A minus before the text of an integer belongs to the literal. -/
theorem unary_of_integer {minus t : Token} {v : Value} (hsign : minus.kind = .minus)
    (hkind : t.kind = .number) (hinteger : '.' ∉ t.text.toList)
    (hvalue : Reads t.text true v) :
    ReadsAs names depth .unary [minus, t] (.literal v) := by
  intro more _
  have hpoint : hasPoint t.text = false :=
    Bool.eq_false_iff.mpr fun h => hinteger ((hasPoint_iff _).mp h)
  show unary names _ _ = _
  rw [List.cons_append, unary_behind_minus hsign,
    if_pos (by simp [Token.first, hkind, hpoint]), bind_ok]
  exact ⟨t, more, (take_one_ok (by decide)).mpr ⟨rfl, hkind⟩,
    numberLiteral_ok.mpr ⟨⟨v, hvalue, rfl⟩, rfl⟩⟩

/-- A minus before anything else changes the sign of the operand. -/
theorem unary_of_operand {minus : Token} {ts : List Token} {e : Expr}
    (hsign : minus.kind = .minus) (hne : ts ≠ [])
    (hother : (Token.first ts).kind = .number → '.' ∈ (Token.first ts).text.toList)
    (h : ReadsAs names depth .primary ts e) :
    ReadsAs names depth .unary (minus :: ts) (.sign "-" e) := by
  intro more hstops
  show unary names _ _ = _
  rw [List.cons_append, unary_behind_minus hsign, first_append hne,
    if_neg (by simpa [hasPoint_iff] using hother)]
  show (primary names _ (ts ++ more) >>= fun p => _) = _
  rw [show primary names _ (ts ++ more) = _ from h more hstops]
  rfl

/-- A relation is an equality where no operator of equality is ahead. -/
theorem equality_of_relation {ts : List Token} {e : Expr}
    (h : ReadsAs names depth .relation ts e) :
    ReadsAs names depth .equality ts e := by
  intro more hstops
  show equality names _ _ = _
  rw [equality]
  simp only [bind_ok]
  refine ⟨e, more, h more hstops.next, _, _, rfl, ?_⟩
  rw [ite_apply, if_neg (by
    rw [show Token.firstIs [.equal, .notEqual] more = false from
      hstops.firstIs_operators]; decide)]
  rfl

/-- Two relations with an operator of equality between them are read as their comparison. -/
theorem equality_of_compared {ts us : List Token} {op : Token}
    {left right : Expr} (hop : op.kind ∈ Tier.equality.operators)
    (hleft : ReadsAs names depth .relation ts left)
    (hright : ReadsAs names depth .relation us right) :
    ReadsAs names depth .equality (ts ++ op :: us)
      (joinCondition op.kind.spelling left right) := by
  intro more hstops
  show equality names _ _ = _
  rw [equality, List.append_assoc]
  simp only [bind_ok]
  refine ⟨left, op :: us ++ more,
    hleft _ (operators_not_continuing_next _ hop), _, _, rfl, ?_⟩
  have hsees : Token.firstIs [.equal, .notEqual] (op :: us ++ more) = true :=
    firstIs_cons hop _
  rw [ite_apply, if_pos hsees]
  simp only [bind_ok, pure_ok]
  exact ⟨op, us ++ more, (take_ok (by decide)).mpr ⟨rfl, hop⟩, right, more,
    hright more hstops.next, rfl⟩

/-- A derived expression is read as what it is, and as a row it can go on. -/
theorem Derives.reads {ts : List Token} {e : Expr}
    (h : Derives names Reads tier ts e) : ∀ depth, ts.length ≤ depth →
      ReadsAs names depth tier ts e ∧
        (tier.chains = true → Unrolls names depth tier ts e) := by
  induction h with
  | @tighter tier ts e loose inside ih =>
    intro depth hdepth
    have hnext := (ih depth hdepth).1
    -- levels that do not chain go over to the next one in their own ways
    cases htier : tier with
    | equality =>
      subst htier
      exact ⟨equality_of_relation hnext, fun hc => by cases hc⟩
    | unary =>
      subst htier
      exact ⟨unary_of_primary inside.ne_nil (inside.first_mem.2 rfl) hnext,
        fun hc => by cases hc⟩
    | primary => exact absurd htier loose
    | _ =>
      have hrow := unrolls_of_next (by rw [htier]; rfl) hnext
      rw [← htier]
      exact ⟨hrow.readsAs, fun _ => hrow⟩
  | chained row before hop hbehind ih ih' =>
    -- here the induction needs the row as a loop, not only as an expression
    intro depth hdepth
    simp only [List.length_append, List.length_cons] at hdepth
    obtain ⟨hmem, rfl⟩ := hop.spelled
    have hrow := ((ih depth (by omega)).2 row).chained hmem
      (ih' depth (by omega)).1
    exact ⟨hrow.readsAs, fun _ => hrow⟩
  | compared before hop hbehind ih ih' =>
    intro depth hdepth
    simp only [List.length_append, List.length_cons] at hdepth
    obtain ⟨hmem, rfl⟩ := hop.spelled
    exact ⟨equality_of_compared hmem (ih depth (by omega)).1
      (ih' depth (by omega)).1, fun hc => by cases hc⟩
  | negative sign kind integer value =>
    exact fun depth _ => ⟨unary_of_integer sign kind integer value,
      fun hc => by cases hc⟩
  | negated sign operand other ih =>
    intro depth hdepth
    rw [List.length_cons] at hdepth
    exact ⟨unary_of_operand sign operand.ne_nil other (ih depth (by omega)).1,
      fun hc => by cases hc⟩
  | number kind value =>
    exact fun depth _ => ⟨fun more _ => literal_reads (.inl ⟨kind, value⟩),
      fun hc => by cases hc⟩
  | text kind =>
    exact fun depth _ => ⟨fun more _ => literal_reads (.inr (.inl ⟨kind, rfl⟩)),
      fun hc => by cases hc⟩
  | truth kind =>
    exact fun depth _ =>
      ⟨fun more _ => literal_reads (.inr (.inr (.inl ⟨kind, rfl⟩))),
        fun hc => by cases hc⟩
  | falsehood kind =>
    exact fun depth _ =>
      ⟨fun more _ => literal_reads (.inr (.inr (.inr ⟨kind, rfl⟩))),
        fun hc => by cases hc⟩
  | @grouped opening ts e closing left inside right ih =>
    intro depth hdepth
    simp only [List.length_append, List.length_cons] at hdepth
    -- what is inside has two tokens less, and may be nested one level less
    refine ⟨fun more _ => ?_, fun hc => by cases hc⟩
    rw [List.cons_append, List.cons_append, List.append_assoc]
    exact grouped_reads left right (inner_reads (fun d hd => (ih d hd).1)
      (by omega) (by show closing.kind ∉ _; rw [right]; decide))
  | read word found =>
    exact fun depth _ => ⟨fun more hstops => read_reads word found hstops,
      fun hc => by cases hc⟩
  | @slot t target opening ts e closing word found left inside right ih =>
    intro depth hdepth
    simp only [List.length_append, List.length_cons] at hdepth
    refine ⟨fun more _ => ?_, fun hc => by cases hc⟩
    simp only [List.cons_append, List.append_assoc]
    exact slot_reads word found left right (inner_reads (fun d hd => (ih d hd).1)
      (by omega) (by show closing.kind ∉ _; rw [right]; decide))
  | called head left right =>
    intro depth _
    refine ⟨fun more _ => ?_, fun hc => by cases hc⟩
    rw [List.append_assoc]
    exact call_reads head left (parenthesised_none left right more)
  | @calledWith head name callee opening ts e more closing hhead left first commas
      others right ih ih' =>
    intro depth hdepth
    simp only [List.length_append, List.length_cons] at hdepth
    refine ⟨fun rest _ => ?_, fun hc => by cases hc⟩
    simp only [List.append_assoc, List.cons_append, List.nil_append]
    exact call_reads hhead left (parenthesised_reads left right first.first_mem.1
      first.ne_nil (fun d hd => (ih d hd).1) commas
      (fun a ha d hd => (ih' a ha d hd).1) (by omega) rest)

/-- Derived tokens are read as an expression, up to what follows. -/
theorem expression_complete {ts : List Token} {e : Expr}
    (h : Derives names Reads .disjunction ts e) (hdepth : ts.length < depth)
    {more : List Token} (hstops : Stops .disjunction more) :
    expression names depth (ts ++ more) = .ok (e, more) :=
  inner_reads (fun d hd => (h.reads d hd).1) hdepth hstops

end Pseudocode.Grammar
