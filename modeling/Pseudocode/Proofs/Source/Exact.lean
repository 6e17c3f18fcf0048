import Pseudocode.Proofs.Lexing
import Pseudocode.Proofs.Source.Outcomes

/-!
# Programs are built exactly by their grammar

The builder reads what the rules allow, with numbers as it reads them itself.  Here
these numbers are exchanged for numbers in base ten: on the number tokens of a program
text the two agree, apart from integers of more than 4300 digits, which the builder
does not read (`follows_decimal`, `follows_read`).  The exchange goes through the rules
one by one, and looks at nothing but the numbers that occur (`Numbering.Follows`); there is
one lemma for each kind of thing that the rules write.

With that the builder and the grammar come together: the tokens of a
text are built if and only if the rules allow them, and the forest that is built shows
the items that the rules find (`builds_exactly`).  From the modules before this one come
the two halves: what is built was written by the rules, and what is written by the rules
is built, unless it is nested too deeply.
-/

namespace Pseudocode

open Source Grammar

namespace Source

/-! ## Exchanging the numbers -/

/-- What numbers denote by one numbering, they denote by another, for the number tokens
of a list. -/
def Numbering.Follows (N N' : Numbering) (ts : List Token) : Prop :=
  ∀ t ∈ ts, t.kind = .number →
    (∀ negative v, N.literal t.text negative v → N'.literal t.text negative v) ∧
    ∀ n, N.length t.text n → N'.length t.text n

variable {N N' : Numbering} {Γ Γ' : Context} {ts : List Token}

/-- What agrees on all tokens agrees on some of them. -/
theorem Numbering.Follows.part (h : N.Follows N' ts) {us : List Token}
    (hpart : ∀ t ∈ us, t ∈ ts) : N.Follows N' us :=
  fun t ht => h t (hpart t ht)

section

variable {α : Type} {r r' : List Token → α → Prop}

/-- What may be left out, weakened. -/
theorem Optionally.imp {a : Option α} (h : Optionally r ts a)
    (himp : ∀ a, r ts a → r' ts a) : Optionally r' ts a := by
  cases h with
  | absent => exact .absent
  | present there => exact .present (himp _ there)

/-- What stands behind a mark, weakened for its own tokens. -/
theorem Behind.imp {kind : Token.Kind} {a : α} (h : Behind kind r ts a)
    (himp : ∀ us a, (∀ t ∈ us, t ∈ ts) → r us a → r' us a) : Behind kind r' ts a := by
  obtain ⟨mark, rest⟩ := h
  exact .mk mark (himp _ _ (fun t ht => List.mem_cons_of_mem _ ht) rest)

/-- What stands in brackets, weakened for its own tokens. -/
theorem Bracketed.imp {a : α} (h : Bracketed r ts a)
    (himp : ∀ us a, (∀ t ∈ us, t ∈ ts) → r us a → r' us a) : Bracketed r' ts a := by
  obtain ⟨left, inside, right⟩ := h
  exact .mk left (himp _ _ (fun t ht => by simp [ht]) inside) right

/-- The items of a list in parentheses, weakened each for its own tokens. -/
theorem Parenthesised.imp {as : List α} (h : Parenthesised r ts as)
    (himp : ∀ us a, (∀ t ∈ us, t ∈ ts) → r us a → r' us a) : Parenthesised r' ts as := by
  cases h with
  | none left right => exact .none left right
  | @some opening us a more closing left first others right =>
    refine .some left (himp _ _ (fun t ht => by simp [ht]) first) (fun b hb => ?_) right
    refine (others b hb).imp fun vs a hvs hr => himp vs a (fun t ht => ?_) hr
    have hmem : t ∈ more.flatMap Prod.fst := List.mem_flatMap.mpr ⟨b, hb, hvs t ht⟩
    simp [hmem]

end

/-- The length of an array is exchanged. -/
theorem TypeWritten.exchange {type : DeclaredType} (h : TypeWritten N ts type)
    (hfollows : N.Follows N' ts) : TypeWritten N' ts type := by
  cases h with
  | scalar word named => exact .scalar word named
  | array word named left number length positive right =>
    exact .array word named left number ((hfollows _ (by simp) number).2 _ length) positive right

/-- So are lengths in the types of parameters. -/
theorem ParameterWritten.exchange {p : Parameter} (h : ParameterWritten N ts p)
    (hfollows : N.Follows N' ts) : ParameterWritten N' ts p := by
  obtain ⟨kind, word⟩ := h
  exact .mk (kind.exchange (hfollows.part fun t ht => by simp [ht])) word

/-- The literals of an expression are exchanged. -/
theorem ExprWritten.exchange {e : Expr} (h : ExprWritten N Γ ts e)
    (hfollows : N.Follows N' ts) : ExprWritten N' Γ ts e :=
  Derives.exchange h fun t ht hkind => (hfollows t ht hkind).1

/-- Statements may have their numbers exchanged. -/
theorem Written.exchange {part : Part} {trees : List (Tree Operator)}
    (h : Written N part Γ ts trees Γ') (hfollows : N.Follows N' ts) :
    Written N' part Γ ts trees Γ' := by
  induction h with
  | declaration head kind word value last fresh =>
    refine .declaration head (kind.exchange (hfollows.part fun t ht => by simp [ht])) word
      (value.imp fun a there => ?_) last fresh
    exact there.imp fun us e hus written => written.exchange
      (hfollows.part fun t ht => by simp [hus t ht])
  | assignment head word found slot mark expression last =>
    refine .assignment head word found (slot.imp fun a there => ?_) mark
      (expression.exchange (hfollows.part fun t ht => by simp [ht])) last
    exact there.imp fun us e hus written => written.exchange
      (hfollows.part fun t ht => by simp [hus t ht])
  | input head word found last => exact .input head word found last
  | output head expression last =>
    exact .output head (expression.exchange (hfollows.part fun t ht => by simp [ht])) last
  | call head operand last =>
    exact .call head (operand.exchange fun t ht hkind =>
      (hfollows t (by simp [ht]) hkind).1) last
  | giveBack head value last function agrees =>
    refine .giveBack head (value.imp fun e written => ?_) last function agrees
    exact written.exchange (hfollows.part fun t ht => by simp [ht])
  | loop head condition mark inside last ih =>
    exact .loop head (condition.exchange (hfollows.part fun t ht => by simp [ht])) mark
      (ih (hfollows.part fun t ht => by simp [ht])) last
  | branch head condition mark inside further otherwise last ih₁ ih₂ ih₃ =>
    exact .branch head (condition.exchange (hfollows.part fun t ht => by simp [ht])) mark
      (ih₁ (hfollows.part fun t ht => by simp [ht]))
      (ih₂ (hfollows.part fun t ht => by simp [ht]))
      (ih₃ (hfollows.part fun t ht => by simp [ht])) last
  | done => exact .done
  | next first rest ih₁ ih₂ =>
    exact .next (ih₁ (hfollows.part fun t ht => by simp [ht]))
      (ih₂ (hfollows.part fun t ht => by simp [ht]))
  | noAlternative => exact .noAlternative
  | alternative head condition mark inside rest ih₁ ih₂ =>
    exact .alternative head
      (condition.exchange (hfollows.part fun t ht => by simp [ht])) mark
      (ih₁ (hfollows.part fun t ht => by simp [ht]))
      (ih₂ (hfollows.part fun t ht => by simp [ht]))
  | noFallback => exact .noFallback
  | fallback head inside ih =>
    exact .fallback head (ih (hfollows.part fun t ht => by simp [ht]))

/-- So may functions. -/
theorem FunctionWritten.exchange {place : Place} {tree : Tree Operator}
    (h : FunctionWritten N place Γ ts tree Γ') (hfollows : N.Follows N' ts) :
    FunctionWritten N' place Γ ts tree Γ' := by
  obtain ⟨word, header, gives, fresh, distinct, inside, last⟩ := h
  refine .mk word (header.imp fun us p hus written => ?_) (gives.imp fun type there => ?_)
    fresh distinct (inside.exchange (hfollows.part fun t ht => by simp [ht])) last
  · exact written.exchange (hfollows.part fun t ht => by simp [hus t ht])
  · exact there.imp fun us type hus written => written.exchange
      (hfollows.part fun t ht => by simp [hus t ht])

/-- So may the methods of a class. -/
theorem MethodsWritten.exchange {place : Place} {trees : List (Tree Operator)}
    (h : MethodsWritten N place Γ ts trees Γ') (hfollows : N.Follows N' ts) :
    MethodsWritten N' place Γ ts trees Γ' := by
  induction h with
  | done => exact .done
  | next head first rest ih =>
    exact .next head (first.exchange (hfollows.part fun t ht => by simp [ht]))
      (ih (hfollows.part fun t ht => by simp [ht]))

/-- So may the items of a module. -/
theorem ItemWritten.exchange {tree : Tree Operator} (h : ItemWritten N Γ ts tree Γ')
    (hfollows : N.Follows N' ts) : ItemWritten N' Γ ts tree Γ' := by
  cases h with
  | header head word last => exact .header head word last
  | beginning inside head => exact .beginning inside head
  | function inside head written =>
    exact .function inside head (written.exchange (hfollows.part fun t ht => by simp [ht]))
  | classDeclaration inside head word fresh members last =>
    exact .classDeclaration inside head word fresh
      (members.exchange (hfollows.part fun t ht => by simp [ht])) last
  | statement inside written => exact .statement inside (written.exchange hfollows)

/-- So may all items. -/
theorem ItemsWritten.exchange {trees : List (Tree Operator)}
    (h : ItemsWritten N Γ ts trees Γ') (hfollows : N.Follows N' ts) :
    ItemsWritten N' Γ ts trees Γ' := by
  induction h with
  | done => exact .done
  | next first rest ih =>
    exact .next (first.exchange (hfollows.part fun t ht => by simp [ht]))
      (ih (hfollows.part fun t ht => by simp [ht]))

/-- So may whole programs. -/
theorem ProgramWritten.exchange {tokens : List Token} {items : List (Tree Operator)}
    (h : ProgramWritten N tokens items Γ) (hfollows : N.Follows N' tokens) :
    ProgramWritten N' tokens items Γ := by
  obtain ⟨used, rest, rfl, hitems, hends⟩ := h
  exact ⟨used, rest, rfl, hitems.exchange (hfollows.part fun t ht => by simp [ht]), hends⟩

/-! ## Numbers in base ten -/

/-- What the builder reads of the numbers of a text is what they denote in base
ten. -/
theorem follows_decimal (h : ∀ t ∈ ts, t.kind = .number → IsDecimal t.text) :
    Numbering.read.Follows .decimal ts := by
  intro t ht hkind
  -- a number that is read is not too long
  have hshort : ∀ n, Numeral.readInteger t.text = .ok n → IsDigits t.text.toList →
      t.text.toList.length ≤ 4300 := by
    intro n hread hdigits
    rw [readInteger_row hdigits] at hread
    by_cases hlong : 4300 < t.text.toList.length
    · rw [if_pos hlong] at hread
      cases hread
    · exact Nat.le_of_not_lt hlong
  refine ⟨fun negative v hreads => ?_, fun n hlength => ?_⟩
  · refine (reads_iff ((h t ht hkind).numeral fun hdigits => ?_)).mp hreads
    have hread : readNumber t.text negative = .ok v := hreads
    unfold readNumber at hread
    rw [hasPoint_digits hdigits, if_neg (by decide)] at hread
    cases hinteger : Numeral.readInteger t.text with
    | error fault =>
      rw [hinteger] at hread
      cases hread
    | ok n => exact hshort n hinteger hdigits
  · obtain ⟨hpoint, hread⟩ := hlength
    rcases h t ht hkind with hdigits | ⟨whole, fraction, -, -, htext⟩
    · rw [readInteger_digits hdigits (hshort n hread hdigits)] at hread
      exact ⟨hdigits, (Except.ok.inj hread).symm⟩
    · rw [hasPoint_fraction htext] at hpoint
      cases hpoint

/-- The builder reads the numbers of a text, integers of too many digits apart. -/
theorem follows_read (h : ∀ t ∈ ts, t.kind = .number → IsDecimal t.text)
    (hdigits : ∀ t ∈ ts, t.kind = .number → IsDigits t.text.toList →
      t.text.toList.length ≤ 4300) :
    Numbering.decimal.Follows .read ts := by
  intro t ht hkind
  refine ⟨fun negative v hdenotes => ?_, fun n hlength => ?_⟩
  · exact (reads_iff ((h t ht hkind).numeral (hdigits t ht hkind))).mpr hdenotes
  · obtain ⟨hrow, rfl⟩ := hlength
    exact ⟨hasPoint_digits hrow, readInteger_digits hrow (hdigits t ht hkind hrow)⟩

end Source

/-! ## Exactness -/

namespace Program

/-- A program that holds items, which leave a context: its forest shows them from the
roots on, each operator once, and it has the modules, functions and methods that they
declare. -/
structure Presents (p : Program) (items : List (Tree Operator)) (Γ : Context) : Prop where
  /-- Everything stands behind a header. -/
  inside : (arrange items).1 = []
  shown : ∃ used, p.forest.Shows (.each p.forest.roots) (arrange items).2 used ∧
    Covers used 0 p.forest.size
  modules : p.modules.toList.map ModuleDeclaration.name = Γ.modules
  signatures : p.functions.toList.map FunctionDeclaration.signature = Γ.signatures
  methods : p.classes.toList.map ClassDeclaration.methods =
    Γ.methods.map (Table.mk .functionName)

/-- What is known of the draft behind the last token is what is said of the program. -/
theorem presents_of_built {d : Draft} {items : List (Tree Operator)} {Γ : Context}
    (h : Built d items Γ) : d.program.Presents items Γ :=
  ⟨h.inside, h.shown, h.agrees.modules, h.agrees.signatures, h.agrees.methods⟩

variable {tokens : List Token}

/-- Tokens that are a program are built, unless they are nested too deeply. -/
theorem ofTokens_of_written {items : List (Tree Operator)} {Γ : Context}
    (h : ProgramWritten .read tokens items Γ)
    (hdepth : tokens.length < nestingLimit ∨ ofTokens tokens ≠ .error .tooDeep) :
    ∃ p, ofTokens tokens = .ok p ∧ p.Presents items Γ := by
  have hrun : ofTokens tokens =
      (Builder.items tokens { ahead := tokens } >>= fun r => pure r.2).map Draft.program :=
    rfl
  rcases h.built with ⟨_, d, hok, hbuilt⟩ | ⟨hdeep, hmany⟩
  · rw [hok] at hrun
    exact ⟨d.program, hrun, presents_of_built hbuilt⟩
  · rw [hdeep] at hrun
    rcases hdepth with hfew | hnot
    · omega
    · exact absurd hrun hnot

/-- The tokens of a text are built into a program if and only if they are one by the
grammar, up to an `end` of the top level or the end of input; and the program that is
built holds the items that the grammar finds.  The limits on nesting and on the digits
of integers apart, nothing comes between. -/
theorem builds_exactly {source : String} {tokens : List Token}
    (hsource : Token.ofText source = .ok tokens)
    (hdigits : ∀ t ∈ tokens, t.kind = .number → IsDigits t.text.toList →
      t.text.toList.length ≤ 4300)
    (hdepth : tokens.length < nestingLimit ∨ ofTokens tokens ≠ .error .tooDeep) :
    ((∃ p, ofTokens tokens = .ok p) ↔ ∃ items Γ, ProgramWritten .decimal tokens items Γ) ∧
    ∀ p items Γ, ofTokens tokens = .ok p → ProgramWritten .decimal tokens items Γ →
      p.Presents items Γ := by
  have hnumbers := Token.ofText_numbers hsource
  have hpresents : ∀ items Γ, ProgramWritten .decimal tokens items Γ →
      ∃ p, ofTokens tokens = .ok p ∧ p.Presents items Γ := fun items Γ h =>
    ofTokens_of_written (h.exchange (follows_read hnumbers hdigits)) hdepth
  refine ⟨⟨?_, ?_⟩, ?_⟩
  · rintro ⟨p, hp⟩
    obtain ⟨d, items, Γ, -, hwritten, -⟩ := ofTokens_built hp
    exact ⟨items, Γ, hwritten.exchange (follows_decimal hnumbers)⟩
  · rintro ⟨items, Γ, hwritten⟩
    obtain ⟨p, hp, -⟩ := hpresents items Γ hwritten
    exact ⟨p, hp⟩
  · intro p items Γ hp hwritten
    obtain ⟨p', hp', h⟩ := hpresents items Γ hwritten
    cases hp.symm.trans hp'
    exact h

/-- A module with a function and a conditional; what stands behind the last `end` is
no program. -/
def conditionalText : String :=
  "module m; variable - int[2] a; function f(int x): int return x + 1; end f. begin "
    ++ "if true then let a[0] := f(3); elseif false then else input a; end if. end rest ("

/-- A conditional with a further branch and a fallback, a function and an array are built
into ten operators, as the grammar says. -/
theorem conditional_built_exactly :
    ∃ tokens p items Γ, Token.ofText conditionalText = .ok tokens ∧
      ofTokens tokens = .ok p ∧ p.forest.size = 10 ∧
      ProgramWritten .decimal tokens items Γ ∧ p.Presents items Γ := by
  have hruns : (Token.ofText conditionalText).toOption.any (fun tokens : List Token =>
      tokens.all (fun t => decide (t.text.toList.length ≤ 4300)) &&
        (decide (tokens.length < nestingLimit) &&
          (ofTokens tokens).toOption.any fun p => decide (p.forest.size = 10))) = true := by
    decide +kernel
  obtain ⟨tokens, hsource, hholds⟩ := exists_ok _ hruns
  simp only [Bool.and_eq_true, List.all_eq_true, decide_eq_true_eq] at hholds
  obtain ⟨hdigits, hlength, hbuilt⟩ := hholds
  obtain ⟨p, hp, hsize⟩ := exists_ok _ hbuilt
  obtain ⟨hiff, hpresents⟩ :=
    builds_exactly hsource (fun t ht _ _ => hdigits t ht) (.inl hlength)
  obtain ⟨items, Γ, hwritten⟩ := hiff.mp ⟨p, hp⟩
  exact ⟨tokens, p, items, Γ, hsource, hp, of_decide_eq_true hsize, hwritten,
    hpresents p items Γ hp hwritten⟩

end Program

end Pseudocode
