import Pseudocode.Proofs.Grammar.Complete
import Pseudocode.Proofs.Literal

/-!
# The reader of expressions accepts exactly the grammar

Soundness and completeness together: tokens are read to their end as an
expression exactly if those before the end of input derive it (`reads_exactly`).

Completeness holds with as many levels of nesting as there are tokens, and the
reader may be given fewer.  A reader with fewer levels is a `Cut` of one with
more: it is too deeply nested or does the same.  Readers are built from readers in few
ways, and each of them keeps a cut (`Cut.bind`, `Cut.ite`), so the levels are gone through
once.  So where the reader is not too deeply nested, it has enough.

The tokens that count are those up to the first end of input (`beforeEnd`).  Rules use no
such token (`Derives.no_end`), and behind what is read to its end there is one; so what is
derived is exactly that part of the tokens, and a list of tokens is at most one
expression (`Derives.unique`).
-/

namespace Pseudocode.Grammar

open Reader Pseudocode.Expr

variable {names : Names}

/-! ## Nesting -/

/-- On all tokens, a reader is nested too deeply or does what another does. -/
def Cut {α : Type} (x y : Reader α) : Prop :=
  ∀ ts, x ts = .error .tooDeep ∨ x ts = y ts

namespace Cut

variable {α β : Type}

/-- A reader is a cut of itself. -/
theorem refl (x : Reader α) : Cut x x := fun _ => .inr rfl

/-- Steps that are cuts one after the other are a cut. -/
theorem bind {x y : Reader α} {f g : α → Reader β} (hx : Cut x y)
    (hf : ∀ a, Cut (f a) (g a)) : Cut (x >>= f) (y >>= g) := by
  intro ts
  show (x ts >>= fun p => f p.1 p.2) = _ ∨
    (x ts >>= fun p => f p.1 p.2) = (y ts >>= fun p => g p.1 p.2)
  obtain h | h := hx ts
  · exact .inl (by rw [h]; rfl)
  · rw [← h]
    cases x ts with
    | error fault => exact .inr rfl
    | ok p => exact hf p.1 p.2

/-- What comes before is the same. -/
theorem behind {f g : α → Reader β} (x : Reader α) (hf : ∀ a, Cut (f a) (g a)) :
    Cut (x >>= f) (x >>= g) :=
  (refl x).bind hf

/-- What comes behind is the same. -/
theorem before {x y : Reader α} (hx : Cut x y) (f : α → Reader β) :
    Cut (x >>= f) (y >>= f) :=
  hx.bind fun a => refl (f a)

/-- A choice between cuts is a cut. -/
theorem ite {p : Prop} [Decidable p] {x y x' y' : Reader α} (hx : Cut x y)
    (hx' : Cut x' y') : Cut (if p then x else x') (if p then y else y') := by
  split
  · exact hx
  · exact hx'

/-- Items behind commas are a cut if each of them is. -/
theorem behindCommas {x y : Reader α} (h : Cut x y) :
    ∀ bound, Cut (behindCommas x bound) (behindCommas y bound)
  | [] => refl _
  | _ :: bound =>
    behind _ fun _ => ite
      (behind _ fun _ => h.bind fun _ => before (behindCommas h bound) _) (refl _)

/-- Items in parentheses are a cut if each of them is. -/
theorem parenthesised {x y : Reader α} (h : Cut x y) :
    Cut (parenthesised x) (parenthesised y) :=
  behind _ fun _ => behind _ fun _ => ite (refl _) <|
    h.bind fun _ => behind _ fun bound => before (h.behindCommas bound) _

/-- A call is a cut if its arguments are. -/
theorem named {x y : Reader Expr} (h : Cut x y) :
    Cut (named names x) (named names y) := by
  refine behind _ fun t => behind _ fun _ => ite ?_ (behind _ fun _ => ite ?_ ?_)
  · exact behind _ fun _ => before h.parenthesised _
  · exact behind _ fun _ => behind _ fun _ => behind _ fun _ =>
      before h.parenthesised _
  · cases names.resolve t.text with
    | none => exact refl _
    | some target =>
      exact behind _ fun _ => ite (behind _ fun _ => before h _) (refl _)

/-- A primary nests whole expressions, and is a cut if they are. -/
theorem primary {x y : Reader Expr} (h : Cut x y) :
    Cut (primary names x) (primary names y) := by
  refine behind _ fun t => ?_
  cases t.kind with
  | word => exact h.named
  | leftParen => exact behind _ fun _ => before h _
  | _ => exact refl _

/-- An operand with its minus is a cut if the primary is. -/
theorem unary {x y : Reader Expr} (h : Cut x y) :
    Cut (unary names x) (unary names y) :=
  behind _ fun _ => ite
    (behind _ fun _ => behind _ fun _ => ite (refl _) (before h.primary _))
    h.primary

/-- The rest of a row is a cut if its operands are. -/
theorem rowRest {kinds : List Token.Kind} {join : String → Expr → Expr → Expr}
    {x y : Reader Expr} (h : Cut x y) :
    ∀ bound left, Cut (rowRest kinds join x bound left)
      (rowRest kinds join y bound left)
  | [], _ => refl _
  | _ :: bound, _ =>
    behind _ fun _ => ite
      (behind _ fun _ => h.bind fun _ => rowRest h bound _) (refl _)

/-- A row is a cut if its operands are. -/
theorem row {kinds : List Token.Kind} {join : String → Expr → Expr → Expr}
    {x y : Reader Expr} (h : Cut x y) : Cut (row kinds join x) (row kinds join y) :=
  h.bind fun left => behind _ fun bound => h.rowRest bound left

/-- An equality is a cut by way of its relations. -/
theorem equality {x y : Reader Expr} (h : Cut x y) :
    Cut (equality names x) (equality names y) := by
  have hrelation : Cut (relation names x) (relation names y) := h.unary.row.row.row
  exact hrelation.bind fun _ => behind _ fun _ =>
    ite (behind _ fun _ => before hrelation _) (refl _)

/-- A whole expression is a cut if what it nests is. -/
theorem disjunction {x y : Reader Expr} (h : Cut x y) :
    Cut (disjunction names x) (disjunction names y) :=
  h.equality.row.row

end Cut

/-- With more levels of nesting a reader does the same, unless it was nested too
deeply. -/
theorem expression_cut {depth more : Nat} (h : depth ≤ more) :
    Cut (expression names depth) (expression names more) := by
  induction depth generalizing more with
  | zero => exact fun _ => .inl rfl
  | succ depth ih =>
    -- both readers are one level over readers that the induction speaks of
    obtain ⟨more, rfl⟩ : ∃ k, more = k + 1 := ⟨more - 1, by omega⟩
    exact (ih (Nat.le_of_succ_le_succ h)).disjunction

/-! ## Tokens up to the end of input -/

/-- The tokens before the first end of input. -/
def beforeEnd (tokens : List Token) : List Token :=
  tokens.takeWhile fun t => t.kind ≠ .endOfInput

/-- A token behind commas is one of the commas, or of the items. -/
theorem mem_behind {more : List (Token × List Token × Expr)} {t : Token} :
    t ∈ behind more ↔ ∃ a ∈ more, t = a.1 ∨ t ∈ a.2.1 := by
  unfold behind
  simp only [List.mem_flatMap, List.mem_cons]

/-- The end of input names nothing that can be called. -/
theorem Called.no_end {head : List Token} {name : String} {callee : Callee}
    (h : Called names head name callee) : ∀ t ∈ head, t.kind ≠ .endOfInput := by
  cases h <;> simp_all

/-- The end of input is no part of an expression. -/
theorem Derives.no_end {number : String → Bool → Value → Prop} {tier : Tier}
    {ts : List Token} {e : Expr} (h : Derives names number tier ts e) :
    ∀ t ∈ ts, t.kind ≠ .endOfInput := by
  have operator_not_end : ∀ {op : Token} {tier : Tier} {join : Expr → Expr → Expr},
      tier.Joins op.kind join → op.kind ≠ .endOfInput :=
    fun hop he => endOfInput_not_mem_operators _ (he ▸ hop.spelled.1)
  induction h with
  | tighter _ _ ih => exact ih
  | chained _ _ operator _ ih ih' =>
    have hop := operator_not_end operator
    grind
  | compared _ operator _ ih ih' =>
    have hop := operator_not_end operator
    grind
  | called head_called =>
    have hhead := head_called.no_end
    grind
  | @calledWith _ _ _ _ _ _ more _ head_called _ _ commas _ _ ih ih' =>
    have hhead := head_called.no_end
    have hmore : ∀ t ∈ behind more, t.kind ≠ .endOfInput := by
      intro t ht
      obtain ⟨a, ha, rfl | ht⟩ := mem_behind.mp ht
      · simp [commas a ha]
      · exact ih' a ha t ht
    grind
  | _ => grind

/-- Rules for what numbers denote can be exchanged if they agree on the numbers
that occur. -/
theorem Derives.exchange {number number' : String → Bool → Value → Prop}
    {tier : Tier} {ts : List Token} {e : Expr}
    (h : Derives names number tier ts e)
    (hagree : ∀ t ∈ ts, t.kind = .number → ∀ negative v,
      number t.text negative v → number' t.text negative v) :
    Derives names number' tier ts e := by
  induction h with
  | tighter loose _ ih => exact .tighter loose (ih hagree)
  | chained row _ operator _ ih ih' =>
    exact .chained row (ih fun t ht => hagree t (by simp [ht])) operator
      (ih' fun t ht => hagree t (by simp [ht]))
  | compared _ operator _ ih ih' =>
    exact .compared (ih fun t ht => hagree t (by simp [ht])) operator
      (ih' fun t ht => hagree t (by simp [ht]))
  | @negative minus t v sign kind integer value =>
    exact .negative sign kind integer (hagree t (by simp) kind _ _ value)
  | negated sign _ other ih =>
    exact .negated sign (ih fun t ht => hagree t (by simp [ht])) other
  | @number t v kind value =>
    exact .number kind (hagree t (by simp) kind _ _ value)
  | text kind => exact .text kind
  | truth kind => exact .truth kind
  | falsehood kind => exact .falsehood kind
  | grouped left _ right ih =>
    exact .grouped left (ih fun t ht => hagree t (by simp [ht])) right
  | read word found => exact .read word found
  | slot word found left _ right ih =>
    exact .slot word found left (ih fun t ht => hagree t (by simp [ht])) right
  | called head left right => exact .called head left right
  | calledWith head left _ commas _ right ih ih' =>
    refine .calledWith head left (ih fun t ht => hagree t (by simp [ht])) commas
      (fun a ha => ih' a ha fun t ht => hagree t ?_) right
    have hmem := mem_behind.mpr ⟨a, ha, .inr ht⟩
    simp [hmem]

/-- What stands before the end of input are the tokens up to there. -/
theorem beforeEnd_append {ts ahead : List Token}
    (h : ∀ t ∈ ts, t.kind ≠ .endOfInput) (hend : Token.atEnd ahead = true) :
    beforeEnd (ts ++ ahead) = ts := by
  unfold beforeEnd
  rw [List.takeWhile_append_of_pos (by simpa using h)]
  cases ahead with
  | nil => simp
  | cons t rest =>
    have ht : t.kind = .endOfInput := of_decide_eq_true hend
    simp [ht]

/-- Behind the tokens before the end of input there is the end of input. -/
theorem eq_beforeEnd_append (tokens : List Token) :
    ∃ ahead, tokens = beforeEnd tokens ++ ahead ∧ Token.atEnd ahead = true := by
  induction tokens with
  | nil => exact ⟨[], rfl, rfl⟩
  | cons t rest ih =>
    by_cases ht : t.kind = .endOfInput
    · refine ⟨t :: rest, ?_, decide_eq_true ht⟩
      unfold beforeEnd
      simp [ht]
    · obtain ⟨ahead, hrest, hend⟩ := ih
      refine ⟨ahead, ?_, hend⟩
      unfold beforeEnd at hrest ⊢
      rw [List.takeWhile_cons_of_pos (by simpa using ht), List.cons_append, ← hrest]

/-- At the end of input every expression stops. -/
theorem stops_of_atEnd {ahead : List Token} (h : Token.atEnd ahead = true) :
    Stops .disjunction ahead := by
  have hkind : (Token.first ahead).kind = .endOfInput := of_decide_eq_true h
  unfold Stops
  rw [hkind]
  decide

/-! ## Exactness -/

/-- A list of tokens is at most one expression. -/
theorem Derives.unique {ts : List Token} {e e' : Expr}
    (h : Derives names Reads .disjunction ts e)
    (h' : Derives names Reads .disjunction ts e') : e = e' := by
  have hstops : Stops .disjunction [] := stops_of_atEnd rfl
  have hread := expression_complete h (Nat.lt_succ_self _) hstops
  -- both trees are what one and the same reader reads
  have hread' := expression_complete h' (Nat.lt_succ_self _) hstops
  rw [hread] at hread'
  injection hread' with hpair
  exact (Prod.mk.inj hpair).1

/-- With enough levels of nesting, derived tokens are read to their end. -/
theorem expression_reads_end {tokens : List Token} {e : Expr} {depth : Nat}
    (h : Derives names Reads .disjunction (beforeEnd tokens) e)
    (hdepth : tokens.length < depth ∨
      expression names depth tokens ≠ .error .tooDeep) :
    ∃ ahead, expression names depth tokens = .ok (e, ahead) ∧
      Token.atEnd ahead = true := by
  obtain ⟨ahead, htokens, hend⟩ := eq_beforeEnd_append tokens
  have hlength : (beforeEnd tokens).length ≤ tokens.length := by
    conv => rhs; rw [htokens]
    simp
  -- with more levels than tokens nothing is nested too deeply
  have hdeep : ∀ {d}, tokens.length < d →
      expression names d tokens = .ok (e, ahead) := by
    intro d hd
    have henough : (beforeEnd tokens).length < d := by omega
    have hread := expression_complete h henough (stops_of_atEnd hend)
    rwa [← htokens] at hread
  refine ⟨ahead, ?_, hend⟩
  obtain hmany | hfew := hdepth
  · exact hdeep hmany
  · -- with fewer levels the reader does the same, since it did not give up
    have hcut : Cut (expression names depth) _ :=
      expression_cut (Nat.le_max_left depth (tokens.length + 1))
    rw [(hcut tokens).resolve_left hfew]
    exact hdeep (by omega)

/-- Expressions are read exactly by their grammar.  Tokens whose numbers are
numerals are read to their end as an expression if and only if those before the
end of input derive it; only the limit on nesting can come between, and does not
if it is above the number of tokens.  So tokens are at most one expression. -/
theorem reads_exactly (names : Names) (tokens : List Token)
    (numerals : ∀ t ∈ tokens, t.kind = .number → IsNumeral t.text) :
    (∀ depth, tokens.length < depth ∨
        expression names depth tokens ≠ .error .tooDeep →
      ∀ e, (∃ ahead, expression names depth tokens = .ok (e, ahead) ∧
          Token.atEnd ahead = true) ↔
        Derives names Denotes .disjunction (beforeEnd tokens) e) ∧
    ∀ e e', Derives names Denotes .disjunction tokens e →
      Derives names Denotes .disjunction tokens e' → e = e' := by
  have hmem : ∀ t ∈ beforeEnd tokens, t ∈ tokens := fun t ht =>
    (List.takeWhile_sublist _).mem ht
  constructor
  · intro depth hdepth e
    constructor
    · rintro ⟨ahead, hread, hend⟩
      -- what is read ends where the end of input is seen, and holds none itself
      obtain ⟨used, rfl, hused⟩ := expression_sound depth hread
      rw [beforeEnd_append hused.no_end hend] at hmem ⊢
      exact hused.exchange fun t ht hkind _ _ =>
        (reads_iff (numerals t (hmem t ht) hkind)).mp
    · intro h
      have hreads := h.exchange fun t ht hkind _ _ =>
        (reads_iff (numerals t (hmem t ht) hkind)).mpr
      exact expression_reads_end hreads hdepth
  · intro e e' h h'
    have hreads : ∀ {e}, Derives names Denotes .disjunction tokens e →
        Derives names Reads .disjunction tokens e := fun h =>
      h.exchange fun t ht hkind _ _ => (reads_iff (numerals t ht hkind)).mpr
    exact (hreads h).unique (hreads h')

/-- The tokens of `x - 2 - -2147483648 == x`, the end of input, and a word
behind it. -/
def differenceTokens : List Token :=
  [⟨.word, "x", 1, 1⟩, .ofKind .minus, ⟨.number, "2", 1, 5⟩, .ofKind .minus,
    .ofKind .minus, ⟨.number, "2147483648", 1, 10⟩, .ofKind .equal,
    ⟨.word, "x", 1, 24⟩, .ending, ⟨.word, "y", 2, 1⟩]

/-- The rows lean to the left, the minus before the least integer belongs to it, and the
equality comes last. -/
theorem difference_read_exactly :
    (∀ t ∈ differenceTokens, t.kind = .number → IsNumeral t.text) ∧
      Derives (.variablesOnly (· = "x")) Denotes .disjunction
        (differenceTokens.take 8)
        (.condition (.compare .equal)
          (.arithmetic .subtract
            (.arithmetic .subtract (.read "x") (.literal (.integer 2)))
            (.literal (.integer (-2147483648))))
          (.read "x")) := by
  have digits : ∀ t ∈ differenceTokens, t.kind = .number → t.text.toList ≠ [] ∧
      t.text.toList.all Text.isDigit = true ∧
      t.text.toList.length ≤ 4300 := by
    decide +kernel
  have numerals : ∀ t ∈ differenceTokens, t.kind = .number → IsNumeral t.text := by
    intro t ht hkind
    obtain ⟨hnonempty, hdigits, hlength⟩ := digits t ht hkind
    exact .inl ⟨⟨hnonempty, List.all_eq_true.mp hdigits⟩, hlength⟩
  exact ⟨numerals, ((reads_exactly (.variablesOnly (· = "x")) differenceTokens
    numerals).1 11 (.inl (by decide)) _).mp ⟨_, rfl, rfl⟩⟩

end Pseudocode.Grammar
