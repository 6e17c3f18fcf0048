import Pseudocode.Expr.Parser
import Pseudocode.Proofs.Reader

/-!
# The grammar of expressions

`Derives` is the grammar as rules: which tokens are an expression, level by
level, and which expression they are.

    disjunction := conjunction ('||' conjunction)*
    conjunction := equality ('&&' equality)*
    equality    := relation (('==' | '!=') relation)?
    relation    := additive (('<' | '<=' | '>' | '>=') additive)*
    additive    := term (('+' | '-') term)*
    term        := unary (('*' | '/') unary)*
    unary       := '-' NUMBER | '-' primary | primary
    primary     := NUMBER | TEXT | 'true' | 'false' | '(' disjunction ')'
                 | WORD | WORD '[' disjunction ']'
                 | called '(' (disjunction (',' disjunction)*)? ')'
    called      := WORD | WORD '.' WORD

A row leans to the left because the rule for a row takes the row so far on its left and
one tighter operand on its right; equality joins two operands of the next level and so
does not chain.  Which node an operator stands for is a table of its own (`Tier.Joins`):
it names the kind of token and the node, and not the way in which the reader gets from
one to the other.

The reader of each level is sound for its rules (`reader_sound`): what it reads
is derived, and everything it takes is what it read.  The proof goes up the levels from
the primary, each from the one below; the parts in parentheses and between commas are
whole expressions again, which is an induction on how deeply they may be nested
(`expression_sound`).  That the rules are complete, and so nothing is read in two ways,
is shown in the modules behind this one.

What a number's text denotes is a parameter of the rules.
-/

namespace Pseudocode.Grammar

open Reader Pseudocode.Expr

/-- The levels of the grammar, loosest first. -/
inductive Tier where
  | disjunction | conjunction | equality | relation | additive | term | unary
  | primary
  deriving Repr, DecidableEq

namespace Tier

/-- The next tighter level. -/
def next : Tier → Tier
  | disjunction => conjunction
  | conjunction => equality
  | equality => relation
  | relation => additive
  | additive => term
  | term => unary
  | unary => primary
  | primary => primary

/-- The operators between operands of a level. -/
def operators : Tier → List Token.Kind
  | disjunction => [.orOr]
  | conjunction => [.andAnd]
  | equality => [.equal, .notEqual]
  | relation => [.less, .lessOrEqual, .greater, .greaterOrEqual]
  | additive => [.plus, .minus]
  | term => [.multiply, .divide]
  | unary | primary => []

/-- Whether operators of a level can follow one another. -/
def chains : Tier → Bool
  | disjunction | conjunction | relation | additive | term => true
  | equality | unary | primary => false

/-- The node that an operator between operands of a level stands for. -/
inductive Joins : Tier → Token.Kind → (Expr → Expr → Expr) → Prop where
  | either : Joins disjunction .orOr (.condition .either)
  | both : Joins conjunction .andAnd (.condition .both)
  | equal : Joins equality .equal (.condition (.compare .equal))
  | notEqual : Joins equality .notEqual (.condition (.compare .notEqual))
  | less : Joins relation .less (.condition (.compare .less))
  | lessOrEqual : Joins relation .lessOrEqual (.condition (.compare .lessOrEqual))
  | greater : Joins relation .greater (.condition (.compare .greater))
  | greaterOrEqual : Joins relation .greaterOrEqual (.condition (.compare .greaterOrEqual))
  | add : Joins additive .plus (.arithmetic .add)
  | subtract : Joins additive .minus (.arithmetic .subtract)
  | multiply : Joins term .multiply (.arithmetic .multiply)
  | divide : Joins term .divide (.arithmetic .divide)

/-- How the reader of a level joins two operands: by the spelling of the operator between
them. -/
def joinSpelled : Tier → String → Expr → Expr → Expr
  | additive | term => joinArithmetic
  | _ => joinCondition

/-- The reader of a level, over one for whole expressions. -/
def reader (names : Names) (inner : Reader Expr) : Tier → Reader Expr
  | disjunction => Expr.disjunction names inner
  | conjunction => Expr.conjunction names inner
  | equality => Expr.equality names inner
  | relation => Expr.relation names inner
  | additive => Expr.additive names inner
  | term => Expr.term names inner
  | unary => Expr.unary names inner
  | primary => Expr.primary names inner

/-- A level with operators and all tighter ones. -/
def andTighter : Tier → List Tier
  | disjunction =>
    [disjunction, conjunction, equality, relation, additive, term]
  | conjunction => [conjunction, equality, relation, additive, term]
  | equality => [equality, relation, additive, term]
  | relation => [relation, additive, term]
  | additive => [additive, term]
  | term => [term]
  | unary | primary => []

/-- What an expression of a level can go on with. -/
def continuing (tier : Tier) : List Token.Kind :=
  [.leftParen, .leftBracket, .dot] ++ tier.andTighter.flatMap operators

end Tier

/-- What a call names: a function, or a method with its class. -/
inductive Called (names : Names) : List Token → String → Callee → Prop where
  | function {t callee} (word : t.kind = .word)
      (found : names.function t.text = .ok callee) :
      Called names [t] t.text callee
  | method {owner point t callee} (first : owner.kind = .word)
      (dot : point.kind = .dot) (word : t.kind = .word)
      (found : names.method owner.text t.text = .ok callee) :
      Called names [owner, point, t] (owner.text ++ "." ++ t.text) callee

/-- The tokens of arguments that each stand behind a comma. -/
def behind (more : List (Token × List Token × Expr)) : List Token :=
  more.flatMap fun a => a.1 :: a.2.1

/-- Which tokens are an expression of a level.  `number` says what a number's
text denotes, with a minus before it or without. -/
inductive Derives (names : Names) (number : String → Bool → Value → Prop) :
    Tier → List Token → Expr → Prop where
  /-- An expression of the next tighter level. -/
  | tighter {tier ts e} (loose : tier ≠ .primary)
      (inside : Derives names number tier.next ts e) :
      Derives names number tier ts e
  /-- A row so far, and one more operand. -/
  | chained {tier ts us op join left right} (row : tier.chains = true)
      (before : Derives names number tier ts left)
      (operator : tier.Joins op.kind join)
      (behind : Derives names number tier.next us right) :
      Derives names number tier (ts ++ op :: us) (join left right)
  /-- Two operands that are equal or not. -/
  | compared {ts us op join left right}
      (before : Derives names number .relation ts left)
      (operator : Tier.equality.Joins op.kind join)
      (behind : Derives names number .relation us right) :
      Derives names number .equality (ts ++ op :: us) (join left right)
  /-- An integer with its minus. -/
  | negative {minus t v} (sign : minus.kind = .minus) (kind : t.kind = .number)
      (integer : '.' ∉ t.text.toList) (value : number t.text true v) :
      Derives names number .unary [minus, t] (.literal v)
  /-- A minus before anything else than an integer. -/
  | negated {minus ts e} (sign : minus.kind = .minus)
      (operand : Derives names number .primary ts e)
      (other : (Token.first ts).kind = .number → '.' ∈ (Token.first ts).text.toList) :
      Derives names number .unary (minus :: ts) (.sign "-" e)
  | number {t v} (kind : t.kind = .number) (value : number t.text false v) :
      Derives names number .primary [t] (.literal v)
  | text {t} (kind : t.kind = .text) :
      Derives names number .primary [t] (.literal (.string t.text))
  | truth {t} (kind : t.kind = .trueWord) :
      Derives names number .primary [t] (.literal (.boolean true))
  | falsehood {t} (kind : t.kind = .falseWord) :
      Derives names number .primary [t] (.literal (.boolean false))
  /-- An expression in parentheses, which leave no node. -/
  | grouped {opening ts e closing} (left : opening.kind = .leftParen)
      (inside : Derives names number .disjunction ts e)
      (right : closing.kind = .rightParen) :
      Derives names number .primary (opening :: ts ++ [closing]) e
  | read {t target} (word : t.kind = .word)
      (found : names.resolve t.text = some target) :
      Derives names number .primary [t] (.read target)
  | slot {t target opening ts e closing} (word : t.kind = .word)
      (found : names.resolve t.text = some target)
      (left : opening.kind = .leftBracket)
      (inside : Derives names number .disjunction ts e)
      (right : closing.kind = .rightBracket) :
      Derives names number .primary (t :: opening :: ts ++ [closing])
        (.slot target e)
  /-- A call without arguments. -/
  | called {head name callee opening closing}
      (head_called : Called names head name callee)
      (left : opening.kind = .leftParen) (right : closing.kind = .rightParen) :
      Derives names number .primary (head ++ [opening, closing])
        (.call name callee [])
  /-- A call with arguments, all but the first behind commas. -/
  | calledWith {head name callee opening ts e more closing}
      (head_called : Called names head name callee)
      (left : opening.kind = .leftParen)
      (first : Derives names number .disjunction ts e)
      (commas : ∀ a ∈ more, a.1.kind = .comma)
      (others : ∀ a ∈ more, Derives names number .disjunction a.2.1 a.2.2)
      (right : closing.kind = .rightParen) :
      Derives names number .primary
        (head ++ opening :: ts ++ behind more ++ [closing])
        (.call name callee (e :: more.map fun a => a.2.2))

variable {names : Names} {number : String → Bool → Value → Prop}
  {inner : Reader Expr}

/-! ## What is read is derived -/

/-- Whether a number has a point is seen in its text. -/
theorem hasPoint_iff (text : String) : hasPoint text = true ↔ '.' ∈ text.toList := by
  unfold hasPoint
  exact List.contains_iff_mem

namespace Tier

variable {tier : Tier} {kind : Token.Kind} {join : Expr → Expr → Expr}

/-- The spelling of an operator is read as the node that the operator stands for. -/
theorem joins_of_mem (h : kind ∈ tier.operators) :
    tier.Joins kind (tier.joinSpelled kind.spelling) := by
  cases tier with
  | unary | primary => cases h
  | disjunction | conjunction =>
    cases List.mem_singleton.mp h
    constructor
  | equality | additive | term =>
    obtain rfl | rfl : kind = _ ∨ kind = _ := by simpa [operators] using h
    all_goals constructor
  | relation =>
    obtain rfl | rfl | rfl | rfl : kind = _ ∨ kind = _ ∨ kind = _ ∨ kind = _ := by
      simpa [operators] using h
    all_goals constructor

/-- What an operator of a level stands for is what its spelling is read as. -/
theorem Joins.spelled (h : tier.Joins kind join) :
    kind ∈ tier.operators ∧ join = tier.joinSpelled kind.spelling := by
  cases h <;> exact ⟨by decide, rfl⟩

end Tier

/-- What a reader reads is what a relation holds of, and nothing else is
taken. -/
def Sound {α : Type} (x : Reader α) (r : List Token → α → Prop) : Prop :=
  ∀ ⦃ts a rest⦄, x ts = .ok (a, rest) → ∃ used, ts = used ++ rest ∧ r used a

/-- A level whose operators chain is a row over the next level. -/
theorem reader_of_chains {tier : Tier} (h : tier.chains = true) :
    tier.reader names inner =
      row tier.operators tier.joinSpelled (tier.next.reader names inner) := by
  cases tier <;> first | rfl | cases h

/-- No level goes on at the end of input. -/
theorem endOfInput_not_mem_operators (tier : Tier) :
    Token.Kind.endOfInput ∉ tier.operators := by
  cases tier <;> decide

/-- The rest of a row continues the row that is derived so far. -/
theorem rowRest_sound {tier : Tier} (hchains : tier.chains = true)
    {operand : Reader Expr}
    (hoperand : Sound operand (Derives names number tier.next)) :
    ∀ {bound ts done left e rest}, Derives names number tier done left →
      rowRest tier.operators tier.joinSpelled operand bound left ts = .ok (e, rest) →
      ∃ used, ts = used ++ rest ∧ Derives names number tier (done ++ used) e := by
  intro bound
  induction bound with
  | nil =>
    intro ts done left e rest hdone h
    -- the bound is used up, and the row ends here
    obtain ⟨rfl, rfl⟩ := Prod.mk.inj (pure_ok.mp h)
    exact ⟨[], rfl, by rwa [List.append_nil]⟩
  | cons b bound ih =>
    intro ts done left e rest hdone h
    rw [rowRest, bind_ok] at h
    obtain ⟨seen, ts₁, hsees, h⟩ := h
    obtain ⟨rfl, rfl⟩ := sees_ok.mp hsees
    rw [ite_apply] at h
    split at h
    · simp only [bind_ok] at h
      obtain ⟨op, ts₂, htake, right, ts₃, hright, h⟩ := h
      obtain ⟨rfl, hop⟩ :=
        (take_ok (endOfInput_not_mem_operators tier)).mp htake
      obtain ⟨us, rfl, hus⟩ := hoperand hright
      -- the row so far and one more operand are the row so far of the rest
      obtain ⟨vs, rfl, hvs⟩ := ih (hdone.chained hchains (Tier.joins_of_mem hop) hus) h
      refine ⟨op :: us ++ vs, by simp, ?_⟩
      simpa using hvs
    · obtain ⟨rfl, rfl⟩ := Prod.mk.inj (pure_ok.mp h)
      exact ⟨[], rfl, by rwa [List.append_nil]⟩

/-- A row is sound over the next level: its first operand, and then what the loop adds. -/
theorem row_sound {tier : Tier} (hchains : tier.chains = true)
    (hnext : Sound (tier.next.reader names inner)
      (Derives names number tier.next)) :
    Sound (tier.reader names inner) (Derives names number tier) := by
  intro ts e rest h
  rw [reader_of_chains hchains, row] at h
  simp only [bind_ok, get_ok] at h
  obtain ⟨left, ts₁, hleft, bound, ts₂, hget, h⟩ := h
  obtain ⟨rfl, rfl⟩ := Prod.mk.inj hget
  obtain ⟨us, rfl, hus⟩ := hnext hleft
  have hloose : tier ≠ .primary := by
    rintro rfl
    cases hchains
  obtain ⟨vs, rfl, hvs⟩ := rowRest_sound hchains hnext (hus.tighter hloose) h
  exact ⟨us ++ vs, by simp, hvs⟩

/-- An equality is sound over relations, with two of them or with one alone. -/
theorem equality_sound
    (hnext : Sound (Expr.relation names inner) (Derives names number .relation)) :
    Sound (Expr.equality names inner) (Derives names number .equality) := by
  intro ts e rest h
  rw [Expr.equality] at h
  simp only [bind_ok] at h
  obtain ⟨left, ts₁, hleft, seen, ts₂, hsees, h⟩ := h
  obtain ⟨rfl, rfl⟩ := sees_ok.mp hsees
  obtain ⟨us, rfl, hus⟩ := hnext hleft
  rw [ite_apply] at h
  split at h
  · -- both operands are of the next level, so there is no third
    simp only [bind_ok, pure_ok] at h
    obtain ⟨op, ts₃, htake, right, ts₄, hright, h⟩ := h
    obtain ⟨rfl, rfl⟩ := Prod.mk.inj h
    obtain ⟨rfl, hop⟩ := (take_ok (by decide)).mp htake
    obtain ⟨vs, rfl, hvs⟩ := hnext hright
    exact ⟨us ++ op :: vs, by simp, hus.compared (Tier.joins_of_mem hop) hvs⟩
  · obtain ⟨rfl, rfl⟩ := Prod.mk.inj (pure_ok.mp h)
    exact ⟨us, rfl, .tighter (by decide) hus⟩

/-- What the reader of numbers makes of a text. -/
def Reads (text : String) (negative : Bool) (v : Value) : Prop :=
  readNumber text negative = .ok v

/-- A number is a literal exactly if its text is read, and no more is taken for it. -/
theorem numberLiteral_ok {t : Token} {negative : Bool} {ts rest : List Token}
    {e : Expr} :
    numberLiteral t negative ts = .ok (e, rest) ↔
      (∃ v, Reads t.text negative v ∧ e = .literal v) ∧ rest = ts := by
  unfold numberLiteral
  rw [lift_ok]
  unfold Reads
  cases readNumber t.text negative with
  | error fault => simp [Except.map]
  | ok v => simp [Except.map, eq_comm]

/-- Items behind commas, each as a reader reads it. -/
theorem behindCommas_sound {α : Type} {item : Reader α}
    {r : List Token → α → Prop} (hitem : Sound item r) :
    ∀ {bound ts as rest}, behindCommas item bound ts = .ok (as, rest) →
      ∃ more : List (Token × List Token × α),
        ts = more.flatMap (fun a => a.1 :: a.2.1) ++ rest ∧
        as = more.map (fun a => a.2.2) ∧
        (∀ a ∈ more, a.1.kind = .comma) ∧ ∀ a ∈ more, r a.2.1 a.2.2 := by
  intro bound
  induction bound with
  | nil =>
    intro ts as rest h
    obtain ⟨rfl, rfl⟩ := Prod.mk.inj (pure_ok.mp h)
    exact ⟨[], by simp⟩
  | cons b bound ih =>
    intro ts as rest h
    rw [behindCommas, bind_ok] at h
    obtain ⟨seen, ts₁, hsees, h⟩ := h
    obtain ⟨rfl, rfl⟩ := sees_ok.mp hsees
    rw [ite_apply] at h
    split at h
    · simp only [bind_ok, pure_ok] at h
      obtain ⟨comma, ts₂, htake, a, ts₃, ha, as', ts₄, hrest, h⟩ := h
      obtain ⟨rfl, rfl⟩ := Prod.mk.inj h
      obtain ⟨rfl, hcomma⟩ := (take_one_ok (by decide)).mp htake
      obtain ⟨us, rfl, hus⟩ := hitem ha
      obtain ⟨more, rfl, rfl, hcommas, hmore⟩ := ih hrest
      refine ⟨(comma, us, a) :: more, by simp, by simp, ?_, ?_⟩
      · exact List.forall_mem_cons.mpr ⟨hcomma, hcommas⟩
      · exact List.forall_mem_cons.mpr ⟨hus, hmore⟩
    · obtain ⟨rfl, rfl⟩ := Prod.mk.inj (pure_ok.mp h)
      exact ⟨[], by simp⟩

/-- The arguments of a call behind what it names. -/
theorem arguments_sound {head : List Token} {name : String} {callee : Callee}
    (hinner : Sound inner (Derives names number .disjunction))
    (hhead : Called names head name callee) {ts rest : List Token}
    {es : List Expr} (h : parenthesised inner ts = .ok (es, rest)) :
    ∃ used, ts = used ++ rest ∧
      Derives names number .primary (head ++ used) (.call name callee es) := by
  rw [parenthesised] at h
  simp only [bind_ok] at h
  obtain ⟨opening, ts₁, hopen, seen, ts₂, hsees, h⟩ := h
  obtain ⟨rfl, hleft⟩ := (take_one_ok (by decide)).mp hopen
  obtain ⟨rfl, rfl⟩ := sees_ok.mp hsees
  rw [ite_apply] at h
  split at h
  · -- nothing between the parentheses
    simp only [bind_ok, pure_ok] at h
    obtain ⟨closing, ts₃, hclose, h⟩ := h
    obtain ⟨rfl, rfl⟩ := Prod.mk.inj h
    obtain ⟨rfl, hright⟩ := (take_one_ok (by decide)).mp hclose
    exact ⟨[opening, closing], by simp, .called hhead hleft hright⟩
  · simp only [bind_ok, get_ok, pure_ok] at h
    obtain ⟨e, ts₃, he, bound, ts₄, hget, es', ts₅, hes, closing, ts₆, hclose,
      h⟩ := h
    obtain ⟨rfl, rfl⟩ := Prod.mk.inj hget
    obtain ⟨rfl, rfl⟩ := Prod.mk.inj h
    obtain ⟨us, rfl, hus⟩ := hinner he
    obtain ⟨more, rfl, rfl, hcommas, hmore⟩ := behindCommas_sound hinner hes
    obtain ⟨rfl, hright⟩ := (take_one_ok (by decide)).mp hclose
    refine ⟨opening :: us ++ behind more ++ [closing], by simp [behind], ?_⟩
    simpa using Derives.calledWith hhead hleft hus hcommas hmore hright

/-- A method is seen by three tokens ahead, of which none is taken. -/
theorem seesMethod_ok {ts rest : List Token} {b : Bool} :
    seesMethod ts = .ok (b, rest) ↔
      b = ((Token.first ts).kind = .dot
        && (Token.first (ts.drop 1)).kind = .word
        && (Token.first (ts.drop 2)).kind = .leftParen) ∧ rest = ts := by
  unfold seesMethod
  simp only [bind_ok, get_ok, pure_ok]
  constructor
  · rintro ⟨a, s, h₁, h₂⟩
    obtain ⟨rfl, rfl⟩ := Prod.mk.inj h₁
    exact Prod.mk.inj h₂
  · rintro ⟨rfl, rfl⟩
    exact ⟨_, _, rfl, rfl⟩

/-- A call names a function or a method that is found, and its arguments are expressions. -/
theorem named_sound (hinner : Sound inner (Derives names number .disjunction)) :
    Sound (named names inner) (Derives names number .primary) := by
  intro ts e rest h
  rw [named] at h
  simp only [bind_ok] at h
  obtain ⟨t, ts₁, htake, seen, ts₂, hsees, h⟩ := h
  obtain ⟨rfl, hword⟩ := (take_one_ok (by decide)).mp htake
  obtain ⟨rfl, rfl⟩ := sees_ok.mp hsees
  rw [ite_apply] at h
  split at h
  · -- a parenthesis right behind the word: a function
    simp only [bind_ok, lift_ok, pure_ok] at h
    obtain ⟨callee, ts₃, ⟨hfound, rfl⟩, es, ts₄, hes, h⟩ := h
    obtain ⟨rfl, rfl⟩ := Prod.mk.inj h
    obtain ⟨us, rfl, hus⟩ := arguments_sound hinner (.function hword hfound) hes
    exact ⟨t :: us, rfl, hus⟩
  · rw [bind_ok] at h
    obtain ⟨seen, ts₃, hahead, h⟩ := h
    obtain ⟨rfl, rfl⟩ := seesMethod_ok.mp hahead
    rw [ite_apply] at h
    split at h
    · -- a point, a word and a parenthesis: a method of the class
      simp only [bind_ok, lift_ok, pure_ok] at h
      obtain ⟨point, ts₄, htake₁, method, ts₅, htake₂, callee, ts₆, ⟨hfound, rfl⟩,
        es, ts₇, hes, h⟩ := h
      obtain ⟨rfl, rfl⟩ := Prod.mk.inj h
      obtain ⟨rfl, hdot⟩ := (take_one_ok (by decide)).mp htake₁
      obtain ⟨rfl, hmethod⟩ := (take_one_ok (by decide)).mp htake₂
      obtain ⟨us, rfl, hus⟩ :=
        arguments_sound hinner (.method hword hdot hmethod hfound) hes
      exact ⟨t :: point :: method :: us, rfl, hus⟩
    · -- anything else is a variable, which has to be visible
      cases hfound : names.resolve t.text with
      | none =>
        rw [hfound] at h
        exact (throw_ok.mp h).elim
      | some target =>
        simp only [hfound, bind_ok] at h
        obtain ⟨seen, ts₄, hsees, h⟩ := h
        obtain ⟨rfl, rfl⟩ := sees_ok.mp hsees
        rw [ite_apply] at h
        split at h
        · simp only [bind_ok, pure_ok] at h
          obtain ⟨opening, ts₅, hopen, index, ts₆, hindex, closing, ts₇, hclose,
            h⟩ := h
          obtain ⟨rfl, rfl⟩ := Prod.mk.inj h
          obtain ⟨rfl, hleft⟩ := (take_one_ok (by decide)).mp hopen
          obtain ⟨us, rfl, hus⟩ := hinner hindex
          obtain ⟨rfl, hright⟩ := (take_one_ok (by decide)).mp hclose
          exact ⟨t :: opening :: us ++ [closing], by simp,
            .slot hword hfound hleft hus hright⟩
        · obtain ⟨rfl, rfl⟩ := Prod.mk.inj (pure_ok.mp h)
          exact ⟨[t], rfl, .read hword hfound⟩

/-- A primary is one of the rules for it, by the first token. -/
theorem primary_sound (hinner : Sound inner (Derives names Reads .disjunction)) :
    Sound (primary names inner) (Derives names Reads .primary) := by
  intro ts e rest h
  rw [primary, bind_ok] at h
  obtain ⟨t, ts₁, hlook, h⟩ := h
  obtain ⟨rfl, rfl⟩ := look_ok.mp hlook
  -- each branch first takes the token it has looked at
  cases hkind : (Token.first ts₁).kind with
  | number =>
    simp only [hkind, bind_ok] at h
    obtain ⟨t, ts₂, htake, h⟩ := h
    obtain ⟨rfl, hkind⟩ := (take_one_ok (by decide)).mp htake
    obtain ⟨⟨v, hv, rfl⟩, rfl⟩ := numberLiteral_ok.mp h
    exact ⟨[t], rfl, .number hkind hv⟩
  | text =>
    simp only [hkind, bind_ok, pure_ok] at h
    obtain ⟨t, ts₂, htake, h⟩ := h
    obtain ⟨rfl, hkind⟩ := (take_one_ok (by decide)).mp htake
    obtain ⟨rfl, rfl⟩ := Prod.mk.inj h
    exact ⟨[t], rfl, .text hkind⟩
  | trueWord =>
    simp only [hkind, bind_ok, pure_ok] at h
    obtain ⟨t, ts₂, htake, h⟩ := h
    obtain ⟨rfl, hkind⟩ := (take_one_ok (by decide)).mp htake
    obtain ⟨rfl, rfl⟩ := Prod.mk.inj h
    exact ⟨[t], rfl, .truth hkind⟩
  | falseWord =>
    simp only [hkind, bind_ok, pure_ok] at h
    obtain ⟨t, ts₂, htake, h⟩ := h
    obtain ⟨rfl, hkind⟩ := (take_one_ok (by decide)).mp htake
    obtain ⟨rfl, rfl⟩ := Prod.mk.inj h
    exact ⟨[t], rfl, .falsehood hkind⟩
  | word =>
    rw [hkind] at h
    exact named_sound hinner h
  | leftParen =>
    simp only [hkind, bind_ok, pure_ok] at h
    obtain ⟨opening, ts₂, hopen, e, ts₃, he, closing, ts₄, hclose, h⟩ := h
    obtain ⟨rfl, rfl⟩ := Prod.mk.inj h
    obtain ⟨rfl, hleft⟩ := (take_one_ok (by decide)).mp hopen
    obtain ⟨us, rfl, hus⟩ := hinner he
    obtain ⟨rfl, hright⟩ := (take_one_ok (by decide)).mp hclose
    exact ⟨opening :: us ++ [closing], by simp, .grouped hleft hus hright⟩
  | _ =>
    rw [hkind] at h
    exact (throw_ok.mp h).elim

/-- No primary is empty. -/
theorem Derives.ne_nil {tier : Tier} {ts : List Token} {e : Expr}
    (h : Derives names number tier ts e) : ts ≠ [] := by
  induction h with
  | tighter _ _ ih => exact ih
  | called => simp
  | _ => simp

/-- The first token of some tokens is first whatever stands behind them. -/
theorem first_append {ts : List Token} (h : ts ≠ []) (rest : List Token) :
    Token.first (ts ++ rest) = Token.first ts := by
  cases ts with
  | nil => exact absurd rfl h
  | cons t ts => rfl

/-- A minus belongs to the integer behind it, or changes the sign of what is behind it. -/
theorem unary_sound (hinner : Sound inner (Derives names Reads .disjunction)) :
    Sound (unary names inner) (Derives names Reads .unary) := by
  intro ts e rest h
  rw [unary, bind_ok] at h
  obtain ⟨seen, ts₁, hsees, h⟩ := h
  obtain ⟨rfl, rfl⟩ := sees_ok.mp hsees
  rw [ite_apply] at h
  split at h
  · simp only [bind_ok] at h
    obtain ⟨minus, ts₂, hminus, t, ts₃, hlook, h⟩ := h
    obtain ⟨rfl, hsign⟩ := (take_one_ok (by decide)).mp hminus
    obtain ⟨rfl, rfl⟩ := look_ok.mp hlook
    rw [ite_apply] at h
    split at h
    · next hnumber =>
      -- the minus belongs to the integer
      rw [bind_ok] at h
      obtain ⟨t, ts₄, htake, h⟩ := h
      obtain ⟨rfl, hkind⟩ := (take_one_ok (by decide)).mp htake
      obtain ⟨⟨v, hv, rfl⟩, rfl⟩ := numberLiteral_ok.mp h
      have hpoint : '.' ∉ t.text.toList := by
        simpa [Token.first, hkind, ← hasPoint_iff] using hnumber
      exact ⟨[minus, t], rfl, .negative hsign hkind hpoint hv⟩
    · next hother =>
      simp only [bind_ok, pure_ok] at h
      obtain ⟨e, ts₄, he, h⟩ := h
      obtain ⟨rfl, rfl⟩ := Prod.mk.inj h
      obtain ⟨us, rfl, hus⟩ := primary_sound hinner he
      refine ⟨minus :: us, rfl, .negated hsign hus ?_⟩
      -- the token behind the minus is the first one of the operand
      intro hkind
      rw [first_append hus.ne_nil] at hother
      simpa [hkind, ← hasPoint_iff] using hother
  · obtain ⟨us, rfl, hus⟩ := primary_sound hinner h
    exact ⟨us, rfl, .tighter (by decide) hus⟩

/-- Every level reads what its rules derive, if whole expressions do. -/
theorem reader_sound (hinner : Sound inner (Derives names Reads .disjunction)) :
    ∀ tier : Tier, Sound (tier.reader names inner) (Derives names Reads tier) := by
  -- from the tightest level to the loosest, each on the one before
  have hprimary : Sound (Tier.primary.reader names inner)
    (Derives names Reads .primary) := primary_sound hinner
  have hunary : Sound (Tier.unary.reader names inner)
    (Derives names Reads .unary) := unary_sound hinner
  have hterm : Sound (Tier.term.reader names inner)
    (Derives names Reads .term) := row_sound rfl hunary
  have hadditive : Sound (Tier.additive.reader names inner)
    (Derives names Reads .additive) := row_sound rfl hterm
  have hrelation : Sound (Tier.relation.reader names inner)
    (Derives names Reads .relation) := row_sound rfl hadditive
  have hequality : Sound (Tier.equality.reader names inner)
    (Derives names Reads .equality) := equality_sound hrelation
  have hconjunction : Sound (Tier.conjunction.reader names inner)
    (Derives names Reads .conjunction) := row_sound rfl hequality
  have hdisjunction : Sound (Tier.disjunction.reader names inner)
    (Derives names Reads .disjunction) := row_sound rfl hconjunction
  intro tier
  cases tier with
  | disjunction => exact hdisjunction
  | conjunction => exact hconjunction
  | equality => exact hequality
  | relation => exact hrelation
  | additive => exact hadditive
  | term => exact hterm
  | unary => exact hunary
  | primary => exact hprimary

/-- What is read as an expression, however deeply nested, is derived. -/
theorem expression_sound : ∀ depth : Nat,
    Sound (expression names depth) (Derives names Reads .disjunction) := by
  intro depth
  induction depth with
  | zero =>
    intro ts e rest h
    exact (throw_ok.mp h).elim
  | succ depth ih => exact reader_sound ih .disjunction

end Pseudocode.Grammar
