import Pseudocode.Proofs.Source.Reading

/-!
# What stands behind an `end`

A reader peeks at tokens that it does not take, at up to three of them behind a word
that may be the class of a method.  None of these peeks reaches behind an `end`: it
is none of the tokens that a peek asks for, so the answer is known before.

Two lists of tokens are *alike* if they are the same up to some `end`.  A step is
*local* if, having succeeded, it does the same when the tokens that it left are
replaced by tokens alike: it takes the same tokens and leaves the replacement.  A
sequence of local steps is local, for a step that left an `end` ahead never came
behind it.

Being local is said together with something about the tokens that a step takes: that there
are none (`Nothing`), that the last of them is no `end` (`Whole`), or nothing at all
(`Anything`).  For the locality of a sequence this makes no difference, but what is known of
a whole item is put together along with it (`thenWhole`, `nothingThen`, `wholeThen`), and at
the top level it tells an `end` of its own from the last token of an item.

Repetitions are bounded by the tokens that were ahead when they began, and so by
different lists in the two runs; `Tracks` compares them as long as neither bound is
too short.  Each round takes at least one token.
-/

namespace Pseudocode

open Source Grammar

/-- States with tokens ahead, which can be replaced. -/
class Ahead (σ : Type) where
  ahead : σ → List Token
  before : σ → List Token → σ
  ahead_before : ∀ s ts, ahead (before s ts) = ts

instance : Ahead (List Token) := ⟨id, fun _ ts => ts, fun _ _ => rfl⟩

instance : Ahead Draft := ⟨Draft.ahead, Draft.before, fun _ _ => rfl⟩

/-- Tokens that are the same up to some `end`. -/
def Alike (ts ts' : List Token) : Prop :=
  ∃ shared closing behind behind', closing.kind = .endWord ∧
    ts = shared ++ closing :: behind ∧ ts' = shared ++ closing :: behind'

namespace Alike

variable {ts ts' : List Token}

/-- Tokens in front of tokens that are alike. -/
theorem append (h : Alike ts ts') (us : List Token) : Alike (us ++ ts) (us ++ ts') := by
  obtain ⟨shared, closing, behind, behind', hkind, rfl, rfl⟩ := h
  exact ⟨us ++ shared, closing, behind, behind', hkind, by simp, by simp⟩

/-- The first token of tokens that are alike is the same. -/
theorem first (h : Alike ts ts') : Token.first ts' = Token.first ts := by
  obtain ⟨shared, closing, behind, behind', -, rfl, rfl⟩ := h
  cases shared <;> rfl

/-- So is what kind it is of. -/
theorem firstIs (h : Alike ts ts') (kinds : List Token.Kind) :
    Token.firstIs kinds ts' = Token.firstIs kinds ts := by
  unfold Token.firstIs
  rw [h.first]

/-- So is whether they are at an end. -/
theorem atEnd (h : Alike ts ts') : Token.atEnd ts' = Token.atEnd ts := by
  unfold Token.atEnd
  rw [h.first]

/-- There is at least the `end`. -/
theorem ne_nil (h : Alike ts ts') : ts ≠ [] ∧ ts' ≠ [] := by
  obtain ⟨shared, closing, behind, behind', -, rfl, rfl⟩ := h
  exact ⟨by simp, by simp⟩

end Alike

section

variable {σ α β : Type} [Ahead σ]

open Ahead

/-- The second step does what the first did, from the same tokens up to alike ones
behind them, as long as no more tokens are ahead than allowed.  Of the tokens that are
taken something is known. -/
def Tracks (m m' : Nat) (taken : List Token → Prop)
    (x x' : StateT σ (Except Fault) α) : Prop :=
  ∀ s a s', (ahead s).length ≤ m → x s = .ok (a, s') →
    ∃ used, taken used ∧ ahead s = used ++ ahead s' ∧
      ∀ rest, Alike (ahead s') rest → (used ++ rest).length ≤ m' →
        x' (before s (used ++ rest)) = .ok (a, before s' rest)

/-- A step that does not depend on what stands behind an `end` that it left. -/
def Local (taken : List Token → Prop) (x : StateT σ (Except Fault) α) : Prop :=
  ∀ m m', Tracks m m' taken x x

/-- Any tokens. -/
def Anything (_ : List Token) : Prop := True

/-- No tokens. -/
def Nothing (used : List Token) : Prop := used = []

/-- Tokens of which the last is no `end`. -/
def Whole (used : List Token) : Prop := ∃ us t, used = us ++ [t] ∧ t.kind ≠ .endWord

/-- What ends in a token has a token. -/
theorem Whole.pos {used : List Token} (h : Whole used) : 1 ≤ used.length := by
  obtain ⟨us, t, rfl, -⟩ := h
  rw [List.length_append]
  exact Nat.le_add_left _ _

/-- What ends in another token than `end` does so whatever is before it. -/
theorem Whole.behind {used : List Token} (h : Whole used) (us : List Token) :
    Whole (us ++ used) := by
  obtain ⟨vs, t, rfl, ht⟩ := h
  exact ⟨us ++ vs, t, by simp, ht⟩

variable {m m' : Nat} {taken taken₁ taken₂ : List Token → Prop}
  {x x' : StateT σ (Except Fault) α} {f f' : α → StateT σ (Except Fault) β}

namespace Tracks

/-- Less may be said of the tokens that are taken. -/
theorem imp (h : Tracks m m' taken x x') (himp : ∀ used, taken used → taken₁ used) :
    Tracks m m' taken₁ x x' := by
  intro s a s' hm hrun
  obtain ⟨used, htaken, hrest⟩ := h s a s' hm hrun
  exact ⟨used, himp used htaken, hrest⟩

/-- Where no token may be ahead there is nothing to compare. -/
theorem none (h : Tracks m m' taken x x') (x'' : StateT σ (Except Fault) α) :
    Tracks m 0 taken x x'' := by
  intro s a s' hm hrun
  obtain ⟨used, htaken, hahead, -⟩ := h s a s' hm hrun
  refine ⟨used, htaken, hahead, fun rest halike hbound => ?_⟩
  rw [List.length_append] at hbound
  have hnil : rest = [] := List.length_eq_zero_iff.mp (by omega)
  exact absurd hnil halike.ne_nil.2

/-- A choice is tracked if both steps are. -/
theorem ite {p : Prop} [Decidable p] {y y' : StateT σ (Except Fault) α}
    (hx : Tracks m m' taken x x') (hy : Tracks m m' taken y y') :
    Tracks m m' taken (if p then x else y) (if p then x' else y') := by
  by_cases hp : p
  · rw [if_pos hp, if_pos hp]
    exact hx
  · rw [if_neg hp, if_neg hp]
    exact hy

end Tracks

namespace Local

/-- A value takes nothing, and is the same. -/
theorem pure (a : α) : Local Nothing (Pure.pure a : StateT σ (Except Fault) α) := by
  intro m m' s b s' _ hrun
  cases pure_ok.mp hrun
  exact ⟨[], rfl, rfl, fun rest _ _ => rfl⟩

/-- A step that fails is local, for nothing is said of failures. -/
theorem throw (fault : Fault) :
    Local taken (MonadExcept.throw fault : StateT σ (Except Fault) α) := by
  intro m m' s a s' _ hrun
  exact (throw_ok.mp hrun).elim

/-- A result takes nothing, and is the same. -/
theorem lift (e : Except Fault α) :
    Local Nothing (liftM e : StateT σ (Except Fault) α) := by
  intro m m' s a s' _ hrun
  obtain ⟨rfl, rfl⟩ := lift_ok.mp hrun
  exact ⟨[], rfl, rfl, fun rest _ _ => rfl⟩

/-- Less may be said of the tokens that a local step takes. -/
theorem imp (h : Local taken x) (himp : ∀ used, taken used → taken₁ used) :
    Local taken₁ x :=
  fun m m' => (h m m').imp himp

theorem returns (a : α) : Local Anything (Pure.pure a : StateT σ (Except Fault) α) :=
  fun m m' => (pure a m m').imp fun _ _ => trivial

theorem lifts (e : Except Fault α) :
    Local Anything (liftM e : StateT σ (Except Fault) α) :=
  fun m m' => (lift e m m').imp fun _ _ => trivial

/-- Nothing need be said of the tokens that a local step takes. -/
theorem any (h : Local taken x) : Local Anything x := h.imp fun _ _ => trivial

/-- A choice between local steps is local. -/
theorem ite {p : Prop} [Decidable p] {y : StateT σ (Except Fault) α}
    (hx : Local taken x) (hy : Local taken y) : Local taken (if p then x else y) :=
  fun m m' => (hx m m').ite (hy m m')

/-- A run of a local step, without bounds. -/
theorem run (h : Local taken x) {s s' : σ} {a : α} (hrun : x s = .ok (a, s')) :
    ∃ used, taken used ∧ ahead s = used ++ ahead s' ∧
      ∀ rest, Alike (ahead s') rest →
        x (before s (used ++ rest)) = .ok (a, before s' rest) := by
  obtain ⟨used, htaken, hahead, -⟩ := h _ 0 s a s' (Nat.le_refl _) hrun
  refine ⟨used, htaken, hahead, fun rest halike => ?_⟩
  obtain ⟨used', -, hahead', hsame⟩ :=
    h _ (used ++ rest).length s a s' (Nat.le_refl _) hrun
  -- the tokens that were taken are known from those that were left
  have heq : used' = used := List.append_cancel_right (hahead'.symm.trans hahead)
  rw [heq] at hsame
  exact hsame rest halike (Nat.le_refl _)

/-- One step behind the other.  Tokens that the first takes need not be allowed to the
second. -/
theorem bind_tracks {k : Nat} (hx : Local taken₁ x)
    (hf : ∀ a, Tracks m m' taken₂ (f a) (f' a))
    (hk : ∀ used, taken₁ used → k ≤ used.length)
    (htaken : ∀ used used', taken₁ used → taken₂ used' → taken (used ++ used')) :
    Tracks (m + k) (m' + k) taken (x >>= f) (x >>= f') := by
  intro s b s' hm hrun
  obtain ⟨a, s₁, hfirst, hsecond⟩ := bind_ok.mp hrun
  obtain ⟨used, hused, hahead, hsame⟩ := hx.run hfirst
  have hlength := hk used hused
  rw [hahead, List.length_append] at hm
  obtain ⟨used', hused', hahead', hsame'⟩ := hf a s₁ b s' (by omega) hsecond
  refine ⟨used ++ used', htaken used used' hused hused', ?_, fun rest halike hm' => ?_⟩
  · rw [hahead, hahead', List.append_assoc]
  · rw [List.append_assoc, List.length_append] at hm'
    rw [List.append_assoc, bind_ok]
    refine ⟨a, before s₁ (used' ++ rest), hsame _ ?_, hsame' rest halike (by omega)⟩
    rw [hahead']
    exact halike.append used'

/-- One local step after another is local, if what they take together is as it is said to
be. -/
theorem bind (hx : Local taken₁ x) (hf : ∀ a, Local taken₂ (f a))
    (htaken : ∀ used used', taken₁ used → taken₂ used' → taken (used ++ used')) :
    Local taken (x >>= f) :=
  fun m m' => hx.bind_tracks (k := 0) (fun a => hf a m m') (fun _ _ => Nat.zero_le _) htaken

/-- A sequence of which nothing is said. -/
theorem andThen (hx : Local taken₁ x) (hf : ∀ a, Local Anything (f a)) :
    Local Anything (x >>= f) :=
  hx.bind hf fun _ _ _ _ => trivial

/-- The last token of a sequence is taken by its second part. -/
theorem thenWhole (hx : Local taken₁ x) (hf : ∀ a, Local Whole (f a)) :
    Local Whole (x >>= f) :=
  hx.bind hf fun used _ _ h => h.behind used

/-- A step that takes nothing. -/
theorem nothingThen (hx : Local Nothing x) (hf : ∀ a, Local taken (f a)) :
    Local taken (x >>= f) := by
  refine hx.bind hf fun used used' hnothing h => ?_
  rw [show used = [] from hnothing]
  exact h

/-- The last token of a sequence is taken by its first part. -/
theorem wholeThen (hx : Local Whole x) (hf : ∀ a, Local Nothing (f a)) :
    Local Whole (x >>= f) := by
  refine hx.bind hf fun used used' h hnothing => ?_
  rw [show used' = [] from hnothing, List.append_nil]
  exact h

/-- The rest of a round, behind a step that may take nothing. -/
theorem then_tracks (hx : Local taken₁ x) (hf : ∀ a, Tracks m m' Anything (f a) (f' a)) :
    Tracks m m' Anything (x >>= f) (x >>= f') :=
  hx.bind_tracks (k := 0) hf (fun _ _ => Nat.zero_le _) fun _ _ _ _ => trivial

/-- The rest of a round, behind a step that takes a token. -/
theorem whole_then_tracks (hx : Local Whole x)
    (hf : ∀ a, Tracks m m' Anything (f a) (f' a)) :
    Tracks (m + 1) (m' + 1) Anything (x >>= f) (x >>= f') :=
  hx.bind_tracks (k := 1) hf (fun _ h => h.pos) fun _ _ _ _ => trivial

end Local

/-- What comes behind the rounds. -/
theorem Tracks.andThen (hx : Tracks m m' taken₁ x x') (hf : ∀ a, Local Anything (f a)) :
    Tracks m m' Anything (x >>= f) (x' >>= f) := by
  intro s b s' hm hrun
  obtain ⟨a, s₁, hfirst, hsecond⟩ := bind_ok.mp hrun
  obtain ⟨used, -, hahead, hsame⟩ := hx s a s₁ hm hfirst
  obtain ⟨used', -, hahead', hsame'⟩ := (hf a).run hsecond
  refine ⟨used ++ used', trivial, ?_, fun rest halike hm' => ?_⟩
  · rw [hahead, hahead', List.append_assoc]
  · rw [List.append_assoc] at hm' ⊢
    rw [bind_ok]
    refine ⟨a, before s₁ (used' ++ rest), hsame _ ?_ hm', hsame' rest halike⟩
    rw [hahead']
    exact halike.append used'

/-- A bounded repetition is tracked if each of its rounds is. -/
theorem tracks_rounds {ι : Type} {x : List Token → ι → StateT σ (Except Fault) α}
    (hdone : ∀ i, Local Nothing (x [] i))
    (hround : ∀ b b' (bound bound' : List Token),
      (∀ i, Tracks bound.length bound'.length Anything (x bound i) (x bound' i)) →
      ∀ i, Tracks (bound.length + 1) (bound'.length + 1) Anything
        (x (b :: bound) i) (x (b' :: bound') i)) :
    ∀ (bound bound' : List Token) i,
      Tracks bound.length bound'.length Anything (x bound i) (x bound' i) := by
  intro bound
  induction bound with
  | nil =>
    intro bound' i s a s' hlength hrun
    obtain ⟨used, -, hahead, -⟩ := (hdone i).run hrun
    refine ⟨used, trivial, hahead, fun rest halike _ => ?_⟩
    rw [hahead, List.length_append, List.length_nil] at hlength
    have hnil : ahead s' = [] := List.length_eq_zero_iff.mp (by omega)
    exact absurd hnil halike.ne_nil.1
  | cons b bound ih =>
    intro bound' i
    cases bound' with
    | nil => exact (hround b b bound [] (ih []) i).none _
    | cons b' bound' => exact hround b b' bound bound' (ih bound') i

/-- A bounded repetition that starts with all tokens ahead as its bound. -/
theorem Local.rounds {x : List Token → StateT σ (Except Fault) α}
    (h : ∀ bound bound' : List Token,
      Tracks bound.length bound'.length taken (x bound) (x bound'))
    (more : List Token) :
    Local taken (MonadState.get >>= fun s => x (more ++ ahead s)) := by
  intro m m' s a s' _ hrun
  have hx : x (more ++ ahead s) s = .ok (a, s') := hrun
  obtain ⟨used, htaken, hahead, -⟩ := h _ [] s a s' (by simp) hx
  refine ⟨used, htaken, hahead, fun rest halike _ => ?_⟩
  obtain ⟨used', -, hahead', hsame⟩ := h _ (more ++ (used ++ rest)) s a s' (by simp) hx
  have heq : used' = used := List.append_cancel_right (hahead'.symm.trans hahead)
  rw [heq] at hsame
  show x (more ++ ahead (before s (used ++ rest))) (before s (used ++ rest)) = _
  rw [ahead_before]
  exact hsame rest halike (by simp)

end

/-! ## Readers -/

namespace Reader

open Pseudocode.Expr

variable {α : Type} {taken : List Token → Prop}

/-- A look at tokens that is the same for alike ones. -/
theorem local_peek (g : List Token → α) (hg : ∀ ts ts', Alike ts ts' → g ts' = g ts) :
    Local Nothing (fun ts => .ok (g ts, ts) : Reader α) := by
  intro m m' ts a ts' _ hrun
  cases hrun
  refine ⟨[], rfl, rfl, fun rest halike _ => ?_⟩
  show Except.ok (g rest, rest) = _
  rw [hg ts rest halike]
  rfl

/-- To look at the next token is local. -/
theorem local_look : Local Nothing look :=
  local_peek Token.first fun _ _ h => h.first

/-- To see the next token is local. -/
theorem local_sees (kinds : List Token.Kind) : Local Nothing (sees kinds) :=
  local_peek (Token.firstIs kinds) fun _ _ h => h.firstIs kinds

/-- The word and the parenthesis of a method call are not behind an `end`. -/
theorem local_seesMethod : Local Nothing seesMethod := by
  refine local_peek (fun ts => (Token.first ts).kind = .dot
    && (Token.first (ts.drop 1)).kind = .word
    && (Token.first (ts.drop 2)).kind = .leftParen) fun ts ts' h => ?_
  obtain ⟨shared, closing, behind, behind', hkind, rfl, rfl⟩ := h
  match shared with
  | [] => simp [Token.first, hkind]
  | [_] => simp [Token.first, hkind]
  | [_, _] => simp [Token.first, hkind]
  | _ :: _ :: _ :: _ => rfl

/-- To take a token is local, and takes one of a kind that is asked for. -/
theorem local_take {kinds : List Token.Kind} (hend : Token.Kind.endOfInput ∉ kinds) :
    Local (fun used => ∃ t, used = [t] ∧ t.kind ∈ kinds) (take kinds) := by
  intro m m' ts t ts' _ hrun
  obtain ⟨rfl, hkind⟩ := (take_ok hend).mp hrun
  exact ⟨[t], ⟨t, rfl, hkind⟩, rfl, fun rest _ _ => (take_ok hend).mpr ⟨rfl, hkind⟩⟩

/-- A token that is taken is no `end`. -/
theorem whole_take {kinds : List Token.Kind} (hend : Token.Kind.endOfInput ∉ kinds)
    (hword : Token.Kind.endWord ∉ kinds) : Local Whole (take kinds) := by
  refine (local_take hend).imp ?_
  rintro _ ⟨t, rfl, hkind⟩
  exact ⟨[], t, rfl, fun h => hword (h ▸ hkind)⟩

/-- Items behind commas are local if each of them is. -/
theorem local_behindCommas {item : Reader α} (hitem : Local taken item) :
    Local Anything (get >>= fun ts => behindCommas item ts) := by
  have htracks := tracks_rounds (x := fun bound (_ : Unit) => behindCommas item bound)
    (fun _ => Local.pure _) fun b b' bound bound' ih _ => ?_
  · exact Local.rounds (fun bound bound' => htracks bound bound' ()) []
  · refine (local_sees _).then_tracks fun seen => .ite ?_ (Local.returns _ _ _)
    refine (whole_take (by decide) (by decide)).whole_then_tracks fun _ => ?_
    exact hitem.then_tracks fun a => (ih ()).andThen fun as => .returns _

/-- So are items in parentheses. -/
theorem local_parenthesised {item : Reader α} (hitem : Local taken item) :
    Local Anything (parenthesised item) := by
  have hclosing : ∀ as : List α,
      Local Anything (take [.rightParen] >>= fun _ => pure as : Reader (List α)) :=
    fun as => (local_take (by decide)).andThen fun _ => .returns as
  refine (local_take (by decide)).andThen fun _ => (local_sees _).andThen fun seen => ?_
  refine .ite (hclosing []) (hitem.andThen fun a => ?_)
  exact (local_behindCommas hitem).andThen fun as => hclosing (a :: as)

section

variable {names : Names} {inner : Reader Expr}

/-- Calls and variables are local if whole expressions are. -/
theorem local_named (hinner : Local taken inner) : Local Anything (named names inner) := by
  refine (local_take (by decide)).andThen fun word => (local_sees _).andThen fun call => ?_
  refine .ite ?_ (local_seesMethod.andThen fun method => .ite ?_ ?_)
  · exact (Local.lift _).andThen fun callee =>
      (local_parenthesised hinner).andThen fun _ => .returns _
  · refine (local_take (by decide)).andThen fun _ => ?_
    refine (local_take (by decide)).andThen fun name => ?_
    refine (Local.lift _).andThen fun callee => ?_
    exact (local_parenthesised hinner).andThen fun _ => .returns _
  · cases names.resolve word.text with
    | none => exact .throw _
    | some target =>
      refine (local_sees _).andThen fun slot => .ite ?_ (.returns _)
      refine (local_take (by decide)).andThen fun _ => ?_
      refine hinner.andThen fun index => ?_
      exact (local_take (by decide)).andThen fun _ => .returns _

/-- So are operands. -/
theorem local_primary (hinner : Local taken inner) :
    Local Anything (primary names inner) := by
  refine local_look.andThen fun t => ?_
  cases t.kind with
  | number => exact (local_take (by decide)).andThen fun _ => .lifts _
  | text => exact (local_take (by decide)).andThen fun _ => .returns _
  | trueWord => exact (local_take (by decide)).andThen fun _ => .returns _
  | falseWord => exact (local_take (by decide)).andThen fun _ => .returns _
  | word => exact local_named hinner
  | leftParen =>
    refine (local_take (by decide)).andThen fun _ => ?_
    refine hinner.andThen fun e => ?_
    exact (local_take (by decide)).andThen fun _ => .returns _
  | _ => exact .throw _

/-- So are operands with a minus. -/
theorem local_unary (hinner : Local taken inner) : Local Anything (unary names inner) := by
  refine (local_sees _).andThen fun minus => .ite ?_ (local_primary hinner)
  refine (local_take (by decide)).andThen fun _ => local_look.andThen fun t => .ite ?_ ?_
  · exact (local_take (by decide)).andThen fun _ => .lifts _
  · exact (local_primary hinner).andThen fun _ => .returns _

/-- So is a row, whose operators are no `end`. -/
theorem local_row {kinds : List Token.Kind} {join : String → Expr → Expr → Expr}
    {operand : Reader Expr} (hend : Token.Kind.endOfInput ∉ kinds)
    (hword : Token.Kind.endWord ∉ kinds) (hoperand : Local taken operand) :
    Local Anything (row kinds join operand) := by
  have htracks := tracks_rounds (x := fun bound left => rowRest kinds join operand bound left)
    (fun _ => Local.pure _) fun b b' bound bound' ih left => ?_
  · refine hoperand.andThen fun left => ?_
    exact Local.rounds (fun bound bound' => htracks bound bound' left) []
  · refine (local_sees _).then_tracks fun seen => .ite ?_ (Local.returns _ _ _)
    refine (whole_take hend hword).whole_then_tracks fun t => ?_
    exact hoperand.then_tracks fun right => ih _

/-- So is every level, one above the other. -/
theorem local_disjunction (hinner : Local taken inner) :
    Local Anything (disjunction names inner) := by
  have hterm : Local Anything (term names inner) :=
    local_row (by decide) (by decide) (local_unary hinner)
  have hadditive : Local Anything (additive names inner) :=
    local_row (by decide) (by decide) hterm
  have hrelation : Local Anything (relation names inner) :=
    local_row (by decide) (by decide) hadditive
  have hequality : Local Anything (equality names inner) := by
    refine hrelation.andThen fun left => (local_sees _).andThen fun seen => .ite ?_ ?_
    · exact (local_take (by decide)).andThen fun t => hrelation.andThen fun _ => .returns _
    · exact .returns _
  have hconjunction : Local Anything (conjunction names inner) :=
    local_row (by decide) (by decide) hequality
  exact local_row (by decide) (by decide) hconjunction

/-- Reading an expression does not depend on what stands behind an `end`. -/
theorem local_expression : ∀ depth, Local Anything (expression names depth)
  | 0 => .throw _
  | depth + 1 => local_disjunction (local_expression depth)

end

/-- A type is local. -/
theorem local_declaredType : Local Anything Builder.declaredType := by
  refine (local_take (by decide)).andThen fun word => (local_sees _).andThen fun seen => ?_
  refine .ite ?_ (.returns _)
  refine (local_take (by decide)).andThen fun _ => (local_take (by decide)).andThen ?_
  refine fun size => (local_take (by decide)).andThen fun _ => .ite (.throw _) ?_
  cases Numeral.readInteger size.text with
  | error fault => exact .throw _
  | ok length => exact .ite (.throw _) (.returns _)

/-- A parameter is local. -/
theorem local_parameter : Local Anything Builder.parameter :=
  local_declaredType.andThen fun type => (local_take (by decide)).andThen fun _ => .returns _

end Reader

end Pseudocode
