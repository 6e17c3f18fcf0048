import Pseudocode.Proofs.Grammar.Exact
import Pseudocode.Proofs.Source.Agreement

/-!
# Reading the small parts of a program

The steps of the builder that only take tokens: single tokens, types, lists of
parameters, expressions.  Each reads exactly what the rules allow.

A run of the builder on tokens that the rules allow ends as they say, or finds them
nested too deeply (`Gets`).  Nesting is counted in tokens, so the second takes as
many tokens as there are levels.  Runs are put together step by step: what the first step
gets is handed to the second (`Gets.bind`), and a step that cannot go wrong is simply made
(`take_bind`, `sees_bind` and the like, one equation for each).

The grammar spells out which word names which kind of value (`KindNamed`), while the
builder looks the word up; `kindNamed_iff` says that the two agree on every word, those
that are no kind included.
-/

namespace Pseudocode

open Source Grammar

/-- A draft with other tokens ahead. -/
def Draft.before (d : Draft) (ts : List Token) : Draft := { d with ahead := ts }

namespace Draft

variable {d : Draft} {Γ : Context}

/-- A draft has ahead what it has ahead. -/
theorem before_ahead (d : Draft) : d.before d.ahead = d := rfl

/-- The same, where it is known what is ahead. -/
theorem before_of_ahead {ts : List Token} (h : d.ahead = ts) : d.before ts = d := by
  rw [← h, before_ahead]

/-- What is ahead makes no difference to the tables. -/
theorem Agrees.before (h : d.Agrees Γ) (ts : List Token) : (d.before ts).Agrees Γ :=
  h.ahead ts

end Draft

namespace Builder

variable {α β : Type} {d : Draft} {deep deep' : Prop}

/-- A run that ends well, unless something is nested too deeply, for which there is
a reason. -/
def Gets (run : Except Fault (α × Draft)) (deep : Prop) (good : α → Draft → Prop) :
    Prop :=
  (∃ a d, run = .ok (a, d) ∧ good a d) ∨ (run = .error .tooDeep ∧ deep)

namespace Gets

/-- A run that succeeded gets what it got. -/
theorem ok {a : α} {good : α → Draft → Prop} (h : good a d) :
    Gets (.ok (a, d)) deep good :=
  .inl ⟨a, d, rfl, h⟩

/-- One step and then another get what the second gets after the first. -/
theorem bind {x : Builder α} {f : α → Builder β} {good : α → Draft → Prop}
    {good' : β → Draft → Prop} (h : Gets (x d) deep good) (hdeep : deep → deep')
    (hf : ∀ a d', good a d' → Gets (f a d') deep' good') :
    Gets ((x >>= f) d) deep' good' := by
  show Gets (x d >>= fun p => f p.1 p.2) deep' good'
  obtain ⟨a, d', hrun, hgood⟩ | ⟨hrun, hreason⟩ := h
  · rw [hrun]
    exact hf a d' hgood
  · rw [hrun]
    exact .inr ⟨rfl, hdeep hreason⟩

/-- What is got may be weakened, and so may the reason for being nested too deeply. -/
theorem imp {run : Except Fault (α × Draft)} {good good' : α → Draft → Prop}
    (h : Gets run deep good) (hdeep : deep → deep')
    (hgood : ∀ a d', good a d' → good' a d') : Gets run deep' good' := by
  obtain ⟨a, d', hrun, h⟩ | ⟨hrun, hreason⟩ := h
  · exact .inl ⟨a, d', hrun, hgood a d' h⟩
  · exact .inr ⟨hrun, hdeep hreason⟩

/-- What is known of a run that succeeded. -/
theorem good {run : Except Fault (α × Draft)} {good : α → Draft → Prop} {a : α}
    (h : Gets run deep good) (hrun : run = .ok (a, d)) : good a d := by
  obtain ⟨a', d', hrun', hgood⟩ | ⟨hrun', -⟩ := h
  · cases hrun.symm.trans hrun'
    exact hgood
  · cases hrun.symm.trans hrun'

end Gets

/-! ## Steps -/

/-- To look at the draft changes nothing. -/
theorem get_bind (f : Draft → Builder β) : (get >>= f) d = f d d := rfl

/-- A draft that is set is the one that the next step finds. -/
theorem set_bind (d' : Draft) (f : PUnit → Builder β) : (set d' >>= f) d = f ⟨⟩ d' := rfl

/-- A draft that is changed is the one that the next step finds. -/
theorem modify_bind (g : Draft → Draft) (f : PUnit → Builder β) :
    (modify g >>= f) d = f ⟨⟩ (g d) := rfl

/-- A step whose run is known is made. -/
theorem bind_of_run {x : Builder α} {f : α → Builder β} {a : α} {d' : Draft}
    (h : x d = .ok (a, d')) : (x >>= f) d = f a d' := by
  show (x d >>= fun p => f p.1 p.2) = _
  rw [h]
  rfl

/-- Where a step fails, nothing behind it is run. -/
theorem bind_of_error {x : Builder α} {f : α → Builder β} {fault : Fault}
    (h : x d = .error fault) : (x >>= f) d = .error fault := by
  show (x d >>= fun p => f p.1 p.2) = _
  rw [h]
  rfl

/-- To see what is ahead takes nothing, and the answer is known from the tokens. -/
theorem sees_bind (kinds : List Token.Kind) (f : Bool → Builder β) :
    (sees kinds >>= f) d = f (Token.firstIs kinds d.ahead) d := rfl

/-- A reader of tokens is a step of the builder that changes only what is ahead. -/
theorem tokens_run {reader : Reader α} {ts rest : List Token} {a : α}
    (h : reader ts = .ok (a, rest)) :
    tokens reader (d.before ts) = .ok (a, d.before rest) := by
  unfold tokens
  rw [show (d.before ts).ahead = ts from rfl, h]
  rfl

/-- A reader of tokens, and the step behind it. -/
theorem tokens_read {reader : Reader α} {f : α → Builder β} {ts rest : List Token}
    {a : α} (h : reader ts = .ok (a, rest)) :
    (tokens reader >>= f) (d.before ts) = f a (d.before rest) :=
  bind_of_run (tokens_run h)

/-- A token of the kind that is asked for is taken. -/
theorem take_bind {kind : Token.Kind} {f : Token → Builder β} {t : Token}
    {rest : List Token} (h : t.kind = kind) (hend : kind ≠ .endOfInput) :
    (take kind >>= f) (d.before (t :: rest)) = f t (d.before rest) :=
  tokens_read ((Reader.take_one_ok hend).mpr ⟨rfl, h⟩)

/-- A variable that is found is what is assigned to. -/
theorem target_bind_of_resolve {name : String} {f : Occurrence → Builder β}
    {o : Occurrence} (h : d.resolve name = some o) : (target name >>= f) d = f o d := by
  unfold target
  rw [bind_assoc, get_bind, h]
  rfl

/-! ## Expressions -/

/-- An expression that the rules allow is read. -/
theorem expression_gets {Γ : Context} {ts rest : List Token} {e : Expr}
    (h : ExprWritten .read Γ ts e) (hagrees : d.Agrees Γ) (hopen : Γ.modules ≠ [])
    (hstops : Stops .disjunction rest) (depth : Nat) :
    Gets (expression depth (d.before (ts ++ rest))) (depth ≤ ts.length)
      fun e' d' => e' = e ∧ d' = d.before rest := by
  have hnames : (d.before (ts ++ rest)).names = Γ.names :=
    (hagrees.before _).names hopen
  show Gets (tokens (Expr.expression (d.before (ts ++ rest)).names depth) _) _ _
  rw [hnames]
  by_cases hdepth : ts.length < depth
  · rw [tokens_run (expression_complete h hdepth hstops)]
    exact .ok ⟨rfl, rfl⟩
  · -- with fewer levels it is the same expression, or too deep
    have hcomplete := expression_complete h (Nat.lt_succ_self _) hstops
    have hle : depth ≤ ts.length + 1 := by omega
    obtain hcut | hcut := expression_cut hle (ts ++ rest)
    · refine .inr ⟨?_, by omega⟩
      unfold tokens
      rw [show (d.before (ts ++ rest)).ahead = ts ++ rest from rfl, hcut]
      rfl
    · rw [tokens_run (hcut.trans hcomplete)]
      exact .ok ⟨rfl, rfl⟩

/-- An operand that the rules allow is read. -/
theorem primary_gets {Γ : Context} {ts rest : List Token} {e : Expr}
    (h : Derives Γ.names Reads .primary ts e) (hstops : Stops .primary rest)
    (depth : Nat) :
    Gets (tokens (Expr.primary Γ.names (Expr.expression Γ.names depth))
        (d.before (ts ++ rest))) (depth ≤ ts.length)
      fun e' d' => e' = e ∧ d' = d.before rest := by
  have hreads : ∀ depth, ts.length ≤ depth →
      Expr.primary Γ.names (Expr.expression Γ.names depth) (ts ++ rest) =
        .ok (e, rest) :=
    fun depth hdepth => (h.reads depth hdepth).1 rest hstops
  by_cases hdepth : ts.length ≤ depth
  · rw [tokens_run (hreads depth hdepth)]
    exact .ok ⟨rfl, rfl⟩
  · have hle : depth ≤ ts.length := by omega
    obtain hcut | hcut := (expression_cut hle).primary (ts ++ rest)
    · refine .inr ⟨?_, by omega⟩
      unfold tokens
      rw [show (d.before (ts ++ rest)).ahead = ts ++ rest from rfl, hcut]
      rfl
    · rw [tokens_run (hcut.trans (hreads _ (Nat.le_refl _)))]
      exact .ok ⟨rfl, rfl⟩

/-! ## Types and parameters -/

/-- Tokens that follow a type end it: they do not start with a bracket. -/
def EndsType (rest : List Token) : Prop := (Token.first rest).kind ≠ .leftBracket

/-- A token of another kind is not ahead. -/
theorem firstIs_eq_false {kind : Token.Kind} {ts : List Token}
    (h : (Token.first ts).kind ≠ kind) : Token.firstIs [kind] ts = false :=
  firstIs_of_not_mem (by simpa using h)

/-- A word is read as the kind that it names, and as no other. -/
theorem kindNamed_iff {word : String} {kind : ScalarKind} :
    KindNamed word kind ↔ ScalarKind.ofWord word = kind := by
  constructor
  · rintro (_ | _ | _ | other)
    · rfl
    · rfl
    · rfl
    · simp only [List.mem_cons, List.not_mem_nil, or_false, not_or] at other
      obtain ⟨hinteger, hreal, hboolean⟩ := other
      rw [ScalarKind.ofWord, if_neg hinteger, if_neg hreal, if_neg hboolean]
  · rintro rfl
    unfold ScalarKind.ofWord
    split
    · next h => exact h ▸ .integer
    · next hinteger =>
      split
      · next h => exact h ▸ .real
      · next hreal =>
        split
        · next h => exact h ▸ .boolean
        · next hboolean => exact .string (by simp [hinteger, hreal, hboolean])

/-- A type that the rules allow is read, if no bracket goes on with it. -/
theorem declaredType_complete {ts rest : List Token} {type : DeclaredType}
    (h : TypeWritten .read ts type) (hends : EndsType rest) :
    declaredType (ts ++ rest) = .ok (type, rest) := by
  unfold declaredType
  cases h with
  | @scalar t kind word named =>
    obtain rfl := kindNamed_iff.mp named
    rw [bind_ok]
    refine ⟨t, rest, (Reader.take_one_ok (by decide)).mpr ⟨rfl, word⟩, ?_⟩
    rw [bind_ok]
    refine ⟨_, _, rfl, ?_⟩
    rw [ite_apply, if_neg (by rw [firstIs_eq_false hends]; decide)]
    rfl
  | @array t kind opening size closing n word named left number length positive right =>
    obtain rfl := kindNamed_iff.mp named
    obtain ⟨hpoint, hread⟩ := length
    simp only [List.cons_append, List.nil_append, bind_ok]
    refine ⟨t, _, (Reader.take_one_ok (by decide)).mpr ⟨rfl, word⟩, _, _, rfl, ?_⟩
    rw [ite_apply, if_pos (firstIs_cons (by simp [left]) _)]
    simp only [bind_ok]
    refine ⟨opening, _, (Reader.take_one_ok (by decide)).mpr ⟨rfl, left⟩, size, _,
      (Reader.take_one_ok (by decide)).mpr ⟨rfl, number⟩, closing, _,
      (Reader.take_one_ok (by decide)).mpr ⟨rfl, right⟩, ?_⟩
    rw [hpoint, if_neg (by decide), hread]
    dsimp only
    rw [if_neg (by omega)]
    rfl

/-- What is read as a type is one by the rules. -/
theorem declaredType_sound : Sound declaredType (TypeWritten .read) := by
  intro ts type rest h
  unfold declaredType at h
  simp only [bind_ok] at h
  obtain ⟨t, ts₁, hfirst, seen, ts₂, hsees, h⟩ := h
  obtain ⟨rfl, hword⟩ := (Reader.take_one_ok (by decide)).mp hfirst
  obtain ⟨rfl, rfl⟩ := Reader.sees_ok.mp hsees
  rw [ite_apply] at h
  split at h
  · simp only [bind_ok] at h
    obtain ⟨opening, ts₂, hopening, size, ts₃, hsize, closing, ts₄, hclosing, h⟩ := h
    obtain ⟨rfl, hleft⟩ := (Reader.take_one_ok (by decide)).mp hopening
    obtain ⟨rfl, hnumber⟩ := (Reader.take_one_ok (by decide)).mp hsize
    obtain ⟨rfl, hright⟩ := (Reader.take_one_ok (by decide)).mp hclosing
    rw [ite_apply] at h
    split at h
    · exact (throw_ok.mp h).elim
    · next hpoint =>
      cases hread : Numeral.readInteger size.text with
      | error fault =>
        rw [hread] at h
        exact (throw_ok.mp h).elim
      | ok n =>
        rw [hread] at h
        dsimp only at h
        rw [ite_apply] at h
        split at h
        · exact (throw_ok.mp h).elim
        · next hpositive =>
          cases pure_ok.mp h
          have hkind : KindNamed t.text (ScalarKind.ofWord t.text) := kindNamed_iff.mpr rfl
          exact ⟨[t, opening, size, closing], rfl, .array hword hkind hleft hnumber
            ⟨by simpa using hpoint, hread⟩ (by omega) hright⟩
  · cases pure_ok.mp h
    exact ⟨[t], rfl, .scalar hword (kindNamed_iff.mpr rfl)⟩

/-- A parameter that the rules allow is read: its name ends its type. -/
theorem parameter_complete {ts : List Token} {p : Parameter}
    (h : ParameterWritten .read ts p) (rest : List Token) :
    parameter (ts ++ rest) = .ok (p, rest) := by
  obtain ⟨kind, word⟩ := h
  rename_i ts type t
  have hends : EndsType (t :: rest) := by
    show t.kind ≠ _
    rw [word]
    decide
  rw [List.append_assoc, parameter, bind_ok]
  refine ⟨type, _, declaredType_complete kind hends, ?_⟩
  rw [bind_ok]
  exact ⟨t, rest, (Reader.take_one_ok (by decide)).mpr ⟨rfl, word⟩, rfl⟩

/-- What is read as a parameter is one by the rules. -/
theorem parameter_sound : Sound parameter (ParameterWritten .read) := by
  intro ts p rest h
  simp only [parameter, bind_ok] at h
  obtain ⟨type, ts₁, hread, t, ts₂, hlast, h⟩ := h
  obtain ⟨used, rfl, htype⟩ := declaredType_sound hread
  obtain ⟨rfl, hword⟩ := (Reader.take_one_ok (by decide)).mp hlast
  cases pure_ok.mp h
  exact ⟨used ++ [t], by simp, .mk htype hword⟩

/-- A type starts with a word. -/
theorem typeWritten_first {N : Numbering} {ts : List Token} {type : DeclaredType}
    (h : TypeWritten N ts type) : ts ≠ [] ∧ (Token.first ts).kind = .word := by
  cases h with
  | scalar word => exact ⟨by simp, word⟩
  | array word => exact ⟨by simp, word⟩

/-- So does a parameter. -/
theorem parameterWritten_first {N : Numbering} {ts : List Token} {p : Parameter}
    (h : ParameterWritten N ts p) (rest : List Token) :
    (Token.first (ts ++ rest)).kind = .word := by
  obtain ⟨kind, -⟩ := h
  obtain ⟨hne, hword⟩ := typeWritten_first kind
  rw [List.append_assoc, first_append hne, hword]

/-! ## Lists in parentheses -/

section

variable {item : Reader α} {r : List Token → α → Prop}

/-- Items behind commas are read, all of them, if each of them is. -/
theorem behindCommas_complete
    (h : ∀ {ts a} (rest : List Token), r ts a → item (ts ++ rest) = .ok (a, rest)) :
    ∀ {more : List (List Token × α)} {bound rest : List Token},
      (∀ b ∈ more, Behind .comma r b.1 b.2) → (Token.first rest).kind ≠ .comma →
      more.length ≤ bound.length →
      Expr.behindCommas item bound (more.flatMap Prod.fst ++ rest) =
        .ok (more.map Prod.snd, rest) := by
  intro more
  induction more with
  | nil =>
    intro bound rest _ hrest _
    cases bound with
    | nil => rfl
    | cons b bound =>
      rw [Expr.behindCommas, bind_ok]
      refine ⟨_, _, rfl, ?_⟩
      rw [ite_apply, List.flatMap_nil, List.nil_append,
        if_neg (by rw [firstIs_eq_false hrest]; decide)]
      rfl
  | cons b more ih =>
    intro bound rest hmore hrest hbound
    obtain ⟨us, a⟩ := b
    have hfirst : Behind .comma r us a := hmore _ (List.mem_cons_self ..)
    cases bound with
    | nil => simp at hbound
    | cons _ bound =>
      obtain ⟨mark, hitem⟩ := hfirst
      rename_i comma ts
      rw [List.flatMap_cons, Expr.behindCommas, bind_ok]
      refine ⟨_, _, rfl, ?_⟩
      simp only [List.cons_append, List.append_assoc]
      rw [ite_apply, if_pos (firstIs_cons (by simp [mark]) _)]
      simp only [bind_ok, pure_ok]
      exact ⟨comma, _, (Reader.take_one_ok (by decide)).mpr ⟨rfl, mark⟩, a, _,
        h _ hitem, _, _, ih (fun b hb => hmore b (List.mem_cons_of_mem _ hb)) hrest
          (by simpa using hbound), rfl⟩

/-- There are no more items behind commas than tokens, so the loop goes round often
enough. -/
theorem length_le_of_behind {more : List (List Token × α)}
    (h : ∀ b ∈ more, Behind .comma r b.1 b.2) :
    more.length ≤ (more.flatMap Prod.fst).length := by
  induction more with
  | nil => simp
  | cons b more ih =>
    have hmore := ih fun b hb => h b (List.mem_cons_of_mem _ hb)
    obtain ⟨us, a⟩ := b
    obtain ⟨-, -⟩ : Behind .comma r us a := h _ (List.mem_cons_self ..)
    simp only [List.flatMap_cons, List.length_append, List.length_cons]
    omega

/-- A list in parentheses is read, the empty one included, if its items are. -/
theorem parenthesised_complete
    (h : ∀ {ts a} (rest : List Token), r ts a → item (ts ++ rest) = .ok (a, rest))
    (hfirst : ∀ {ts a} (rest : List Token), r ts a →
      (Token.first (ts ++ rest)).kind ≠ .rightParen)
    {ts : List Token} {as : List α} (hlist : Parenthesised r ts as) (rest : List Token) :
    Expr.parenthesised item (ts ++ rest) = .ok (as, rest) := by
  rw [Expr.parenthesised]
  simp only [bind_ok]
  cases hlist with
  | @none opening closing left right =>
    simp only [List.cons_append, List.nil_append]
    refine ⟨opening, _, (Reader.take_one_ok (by decide)).mpr ⟨rfl, left⟩, _, _, rfl, ?_⟩
    rw [ite_apply, if_pos (firstIs_cons (by simp [right]) _)]
    simp only [bind_ok, pure_ok]
    exact ⟨closing, _, (Reader.take_one_ok (by decide)).mpr ⟨rfl, right⟩, rfl⟩
  | @some opening ts a more closing left first others right =>
    simp only [List.cons_append, List.append_assoc, List.nil_append]
    refine ⟨opening, _, (Reader.take_one_ok (by decide)).mpr ⟨rfl, left⟩, _, _, rfl, ?_⟩
    rw [ite_apply, if_neg (by rw [firstIs_eq_false (hfirst _ first)]; decide)]
    simp only [bind_ok, get_ok, pure_ok]
    have hclosing : (Token.first (closing :: rest)).kind ≠ .comma := by
      show closing.kind ≠ _
      rw [right]
      decide
    have hbound : more.length ≤ (more.flatMap Prod.fst ++ closing :: rest).length := by
      have := length_le_of_behind others
      rw [List.length_append]
      omega
    exact ⟨a, _, h _ first, _, _, rfl, _, _,
      behindCommas_complete h others hclosing hbound, closing, _,
      (Reader.take_one_ok (by decide)).mpr ⟨rfl, right⟩, rfl⟩

/-- What is read as a list in parentheses is one by the rules. -/
theorem parenthesised_sound (h : Sound item r) :
    Sound (Expr.parenthesised item) (Parenthesised r) := by
  intro ts as rest hrun
  rw [Expr.parenthesised] at hrun
  simp only [bind_ok] at hrun
  obtain ⟨opening, ts₁, hopening, seen, ts₂, hsees, hrun⟩ := hrun
  obtain ⟨rfl, hleft⟩ := (Reader.take_one_ok (by decide)).mp hopening
  obtain ⟨rfl, rfl⟩ := Reader.sees_ok.mp hsees
  rw [ite_apply] at hrun
  split at hrun
  · simp only [bind_ok, pure_ok] at hrun
    obtain ⟨closing, ts₃, hclosing, hrun⟩ := hrun
    obtain ⟨rfl, rfl⟩ := Prod.mk.inj hrun
    obtain ⟨rfl, hright⟩ := (Reader.take_one_ok (by decide)).mp hclosing
    exact ⟨[opening, closing], rfl, .none hleft hright⟩
  · simp only [bind_ok, get_ok, pure_ok] at hrun
    obtain ⟨a, ts₃, ha, bound, ts₄, hget, as', ts₅, hmore, closing, ts₆, hclosing, hrun⟩ :=
      hrun
    obtain ⟨rfl, rfl⟩ := Prod.mk.inj hget
    obtain ⟨rfl, rfl⟩ := Prod.mk.inj hrun
    obtain ⟨us, rfl, hfirst⟩ := h ha
    obtain ⟨more, rfl, rfl, hcommas, hitems⟩ := behindCommas_sound h hmore
    obtain ⟨rfl, hright⟩ := (Reader.take_one_ok (by decide)).mp hclosing
    have hothers : ∀ b ∈ more.map fun b => (b.1 :: b.2.1, b.2.2),
        Behind .comma r b.1 b.2 := by
      intro b hb
      obtain ⟨c, hc, rfl⟩ := List.mem_map.mp hb
      exact .mk (hcommas c hc) (hitems c hc)
    have hlist := Parenthesised.some hleft hfirst hothers hright
    rw [List.flatMap_map, List.map_map] at hlist
    exact ⟨_, by simp, hlist⟩

end

end Builder

end Pseudocode
