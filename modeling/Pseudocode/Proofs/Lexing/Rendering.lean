import Pseudocode.Proofs.Lexing.Lossless

/-!
# Reading what was written

Tokens are written one after another with blanks and comments between them
(`rendered`), and the lexer gives them back (`ofText_rendered`).  Two things could go
wrong.  A token could go on in what follows it: `:` before `=`, a word before a letter,
`/` before a comment; but no lexeme other than blanks, comments and texts has a blank in
it, and these three go on from no token (`Lexes.longest_token`).  And a gap could take
something of the next token: but its last character is a blank, and no token starts
with one (`Lexes.first_not_blank`).
-/

namespace Pseudocode.Token

open Text Grammar

/-- A token that the lexer could have made: its text is one of its kind. -/
def Proper (t : Token) : Prop :=
  match t.kind with
  | .word => IsWord t.text.toList ∧ ∀ kind ∈ Kind.keywords, t.text ≠ kind.spelling
  | .number => IsDecimal t.text
  | .text => ∀ c ∈ t.text.toList, c ≠ '"' ∧ c ≠ '\n'
  | .endOfInput => False
  | kind => t.text = kind.spelling

/-- Blanks and comments in any order; each comment ends with a line feed. -/
inductive Mixed : List Char → Prop where
  | nil : Mixed []
  | blank {c cs} (space : isSpace c = true) (more : Mixed cs) : Mixed (c :: cs)
  | comment {line cs} (inside : ∀ c ∈ line, c ≠ '\n') (more : Mixed cs) :
      Mixed ('/' :: '/' :: (line ++ '\n' :: cs))

/-- What may stand between two tokens: blanks and comments, a blank first. -/
def IsSeparator (gap : List Char) : Prop :=
  Mixed gap ∧ ∃ c ∈ gap.head?, isSpace c = true

/-- Tokens written one after another, with gaps behind them as long as there are
any. -/
def rendered : List Token → List (List Char) → List Char
  | [], _ => []
  | t :: tokens, gaps => t.written ++ (gaps.headD [] ++ rendered tokens gaps.tail)

/-- What a token says: everything but its place. -/
def content (t : Token) : Kind × String := (t.kind, t.text)

/-! ## Proper tokens are lexemes -/

/-- A proper token is a lexeme as it is written. -/
theorem Proper.lexes {t : Token} (h : t.Proper) : Lexes (some t.kind) t.written := by
  obtain ⟨kind, text, line, column⟩ := t
  have hplain : kind ∈ Kind.keywords ∨ kind ∈ Kind.marks → text = kind.spelling →
      Lexes (some kind) text.toList := by
    rintro (hmem | hmem) rfl
    · exact .keyword hmem
    · exact .mark hmem
  cases kind with
  | word =>
    obtain ⟨hword, hown⟩ := h
    exact .word hword fun kind hmem heq => hown kind hmem (String.toList_inj.mp heq).symm
  | number => exact .number h
  | text => exact .text h
  | endOfInput => exact h.elim
  | _ => exact hplain (by decide) h

/-! ## Where a lexeme ends

What stands behind a token decides where it ends.  A word ends where nothing follows that goes
on with a word, a number where no digit does and no point with a digit behind it, a mark where
it is no part of a longer one or of a comment; a text ends by itself. -/

/-- A lexeme is the longest one if none goes on with the next character. -/
theorem Lexes.longest {kind : Option Kind} {cs rest : List Char} (h : Lexes kind cs)
    (hends : ∀ d ∈ rest.head?, ∀ kind' more, ¬ Lexes kind' (cs ++ d :: more)) :
    Longest kind cs rest := by
  refine ⟨h, fun kind' cs' h' hbegins => Nat.le_of_not_lt fun hlt => ?_⟩
  cases rest with
  | nil =>
    have hle := hbegins.length_le
    rw [List.append_nil] at hle
    omega
  | cons d rest =>
    have hstart : cs ++ [d] <+: cs ++ d :: rest := ⟨rest, by simp⟩
    have hlong : (cs ++ [d]).length ≤ cs'.length := by
      rw [List.length_append, List.length_singleton]
      omega
    obtain ⟨more, rfl⟩ := List.prefix_of_prefix_length_le hstart hbegins hlong
    rw [List.append_assoc, List.singleton_append] at h'
    exact hends d rfl kind' more h'

/-- All characters of a word are word characters. -/
theorem IsWord.all {cs : List Char} (h : IsWord cs) : ∀ c ∈ cs, isWordChar c = true := by
  cases cs with
  | nil => exact h.elim
  | cons c cs =>
    obtain ⟨hstart, hall⟩ := h
    refine List.forall_mem_cons.mpr ⟨?_, hall⟩
    exact (Bool.and_eq_true_iff.mp hstart).1

/-- A number has digits and points only. -/
theorem decimal_chars {text : String} (h : IsDecimal text) :
    ∀ c ∈ text.toList, isDigit c = true ∨ c = '.' := by
  intro c hc
  rcases h with ⟨-, hall⟩ | ⟨whole, fraction, ⟨-, hwhole⟩, ⟨-, hfraction⟩, htext⟩
  · exact .inl (hall c hc)
  · rw [htext] at hc
    rcases List.mem_append.mp hc with hc | hc
    · exact .inl (hwhole c hc)
    rcases List.mem_cons.mp hc with rfl | hc
    · exact .inr rfl
    · exact .inl (hfraction c hc)

/-- How the lexemes of tokens start. -/
theorem Lexes.first {kind : Kind} {c : Char} {cs : List Char}
    (h : Lexes (some kind) (c :: cs)) :
    isWordStart c = true ∨ isDigit c = true ∨ (c = '"' ∧ '"' ∈ cs) ∨
      ∃ mark ∈ Kind.marks, mark.spelling.toList = c :: cs := by
  generalize hcs : c :: cs = all at h
  cases h with
  | keyword hmem =>
    have hword := isWord_keyword _ hmem
    rw [← hcs] at hword
    exact .inl hword.1
  | word hword =>
    rw [← hcs] at hword
    exact .inl hword.1
  | number hdecimal =>
    right; left
    rcases hdecimal with ⟨-, hall⟩ | ⟨whole, fraction, ⟨hne, hall⟩, -, htext⟩
    · rw [← hcs] at hall
      exact hall c (List.mem_cons_self ..)
    · obtain ⟨d, whole, rfl⟩ := List.exists_cons_of_ne_nil hne
      rw [← hcs, List.cons_append] at htext
      cases htext
      exact hall c (List.mem_cons_self ..)
  | text =>
    cases hcs
    exact .inr (.inr (.inl ⟨rfl, by simp⟩))
  | mark hmem => exact .inr (.inr (.inr ⟨_, hmem, rfl⟩))

/-- No token starts with a blank. -/
theorem Lexes.first_not_blank {kind : Kind} {c : Char} {cs : List Char}
    (h : Lexes (some kind) (c :: cs)) : isSpace c = false := by
  rcases h.first with hword | hdigit | ⟨rfl, -⟩ | ⟨mark, hmem, hmark⟩
  · exact isSpace_of_isWordStart hword
  · exact isSpace_of_isDigit hdigit
  · exact quote_only.1
  · exact (mark_only mark hmem c (by rw [hmark]; exact List.mem_cons_self ..)).1

/-- The only token that starts with a slash is a slash. -/
theorem Lexes.slash {kind : Kind} {cs : List Char} (h : Lexes (some kind) ('/' :: cs)) :
    cs = [] := by
  obtain ⟨-, hword, hdigit⟩ := slash_only
  rcases h.first with hword' | hdigit' | ⟨hquote, -⟩ | ⟨mark, hmem, hmark⟩
  · cases hword.symm.trans hword'
  · cases hdigit.symm.trans hdigit'
  · cases hquote
  · have hshort := slash_short mark hmem (by rw [hmark]; exact List.mem_cons_self ..)
    rw [hmark, List.length_cons] at hshort
    exact List.eq_nil_of_length_eq_zero (by omega)

/-- What starts with a quote has another one. -/
theorem Lexes.quote {kind : Kind} {cs : List Char} (h : Lexes (some kind) ('"' :: cs)) :
    '"' ∈ cs := by
  obtain ⟨-, hword, hdigit⟩ := quote_only
  rcases h.first with hword' | hdigit' | ⟨-, hmem⟩ | ⟨mark, hmem, hmark⟩
  · cases hword.symm.trans hword'
  · cases hdigit.symm.trans hdigit'
  · exact hmem
  · exact absurd rfl (mark_only mark hmem '"' (by rw [hmark]; exact List.mem_cons_self ..)).2.2.2

/-- A token ends before a blank. -/
theorem Lexes.longest_token {kind : Kind} {cs rest : List Char} (h : Lexes (some kind) cs)
    (hrest : ∀ d ∈ rest.head?, isSpace d = true) : Longest (some kind) cs rest := by
  refine h.longest fun d hd kind' more h' => ?_
  obtain ⟨hword, hdigit, hslash, hquote⟩ := isSpace_only (hrest d hd)
  have hpoint : d ≠ '.' := by
    rintro rfl
    exact absurd (hrest '.' hd) (by decide)
  obtain ⟨c, cs, rfl⟩ := List.exists_cons_of_ne_nil h.ne_nil
  have hmem : d ∈ c :: cs ++ d :: more := by simp
  generalize hall : c :: cs ++ d :: more = all at h' hmem
  cases h' with
  | blanks hne hblank =>
    have hc : isSpace c = true := hblank c (by rw [← hall]; simp)
    cases h.first_not_blank.symm.trans hc
  | comment =>
    obtain ⟨rfl, hcomment⟩ := List.cons.inj hall
    rw [h.slash] at hcomment
    cases hcomment
    exact hslash rfl
  | keyword hkeyword => cases hword.symm.trans ((isWord_keyword _ hkeyword).all d hmem)
  | word hisword => cases hword.symm.trans (hisword.all d hmem)
  | number hdecimal =>
    rcases decimal_chars hdecimal d hmem with hdigit' | rfl
    · cases hdigit.symm.trans hdigit'
    · exact hpoint rfl
  | @text inside hquoted =>
    -- the quote that ends the shorter text is inside the longer one
    obtain ⟨rfl, hinside⟩ := List.cons.inj hall
    have hshorter := congrArg List.dropLast hinside
    rw [List.append_eq, List.dropLast_concat, List.dropLast_append_cons] at hshorter
    have hin : '"' ∈ inside := by
      rw [← hshorter]
      exact List.mem_append_left _ h.quote
    exact (hquoted _ hin).1 rfl
  | mark hmark => cases (mark_only _ hmark d hmem).1.symm.trans (hrest d hd)

/-- A run of blanks ends before what is no blank. -/
theorem longest_blanks {cs rest : List Char} (hne : cs ≠ [])
    (hall : ∀ c ∈ cs, isSpace c = true) (hrest : ∀ d ∈ rest.head?, isSpace d = false) :
    Longest none cs rest := by
  refine (Lexes.blanks hne hall).longest fun d hd kind more h => ?_
  obtain ⟨c, cs, rfl⟩ := List.exists_cons_of_ne_nil hne
  have hc := hall c (List.mem_cons_self ..)
  cases kind with
  | some kind => cases hc.symm.trans h.first_not_blank
  | none =>
    generalize hcs : c :: cs ++ d :: more = cs' at h
    cases h with
    | blanks _ hblank => cases (hrest d hd).symm.trans (hblank d (by rw [← hcs]; simp))
    | comment =>
      obtain ⟨rfl, -⟩ := List.cons.inj hcs
      exact (isSpace_only hc).2.2.1 rfl

/-- A comment ends before a line feed. -/
theorem longest_comment {line : List Char} (hline : ∀ c ∈ line, c ≠ '\n') (rest : List Char) :
    Longest none ('/' :: '/' :: line) ('\n' :: rest) := by
  refine (Lexes.comment hline).longest fun d hd kind more h => ?_
  cases hd
  cases kind with
  | some kind => cases h.slash
  | none =>
    generalize hcs : '/' :: '/' :: line ++ '\n' :: more = cs at h
    cases h with
    | blanks _ hblank =>
      have hslash := hblank '/' (by rw [← hcs]; simp)
      cases slash_only.1.symm.trans hslash
    | comment hline' =>
      cases hcs
      exact hline' '\n' (by simp) rfl

/-! ## Reading what was written

Behind each token stands a gap or another token that cannot go on with it; so the longest
lexeme at that place is the token itself.  The induction is on the tokens. -/

/-- Blanks, if there are any, are one gap. -/
theorem Reading.over_blanks {read cs rest : List Char} {tokens : List Token}
    (h : Reading read tokens (cs ++ rest)) (hall : ∀ c ∈ cs, isSpace c = true)
    (hrest : ∀ d ∈ rest.head?, isSpace d = false) : Reading (read ++ cs) tokens rest := by
  by_cases hne : cs = []
  · subst hne
    rwa [List.append_nil]
  · exact h.gap (longest_blanks hne hall hrest)

/-- Blanks and comments are read as gaps.  The blanks that stand before them join the
first ones of the mixture, and so does the line feed behind a comment. -/
theorem Reading.over_mixed {gap read blanks rest : List Char} {tokens : List Token}
    (hmixed : Mixed gap) (h : Reading read tokens (blanks ++ (gap ++ rest)))
    (hall : ∀ c ∈ blanks, isSpace c = true) (hrest : ∀ d ∈ rest.head?, isSpace d = false) :
    Reading (read ++ blanks ++ gap) tokens rest := by
  induction hmixed generalizing read blanks with
  | nil =>
    rw [List.append_nil]
    exact h.over_blanks hall hrest
  | @blank c cs space more ih =>
    have hall' : ∀ d ∈ blanks ++ [c], isSpace d = true := by
      intro d hd
      rcases List.mem_append.mp hd with hd | hd
      · exact hall d hd
      · rw [List.mem_singleton.mp hd]
        exact space
    have hsplit : blanks ++ (c :: cs ++ rest) = blanks ++ [c] ++ (cs ++ rest) := by simp
    rw [hsplit] at h
    simpa using ih h hall'
  | @comment line cs inside more ih =>
    have hblanks : Reading (read ++ blanks) tokens
        (('/' :: '/' :: line) ++ '\n' :: (cs ++ rest)) := by
      refine Reading.over_blanks (by simpa using h) hall fun d hd => ?_
      cases hd
      exact slash_only.1
    have hfeed : Reading (read ++ blanks ++ '/' :: '/' :: line) tokens
        (['\n'] ++ (cs ++ rest)) :=
      hblanks.gap (longest_comment inside _)
    simpa using ih hfeed (List.forall_mem_singleton.mpr (by decide))

/-- Rendered tokens start with no blank. -/
theorem rendered_head {tokens : List Token} (h : ∀ t ∈ tokens, t.Proper)
    (gaps : List (List Char)) : ∀ d ∈ (rendered tokens gaps).head?, isSpace d = false := by
  cases tokens with
  | nil => exact fun d hd => nomatch hd
  | cons t tokens =>
    have hlexes := (h t (List.mem_cons_self ..)).lexes
    intro d hd
    rw [rendered] at hd
    generalize t.written = cs at hlexes hd
    obtain ⟨c, cs, rfl⟩ := List.exists_cons_of_ne_nil hlexes.ne_nil
    cases hd
    exact hlexes.first_not_blank

/-- Rendered tokens are read, each at the place where it comes to stand. -/
theorem Reading.over_rendered {tokens : List Token} (htokens : ∀ t ∈ tokens, t.Proper) :
    ∀ {gaps : List (List Char)}, (∀ gap ∈ gaps, IsSeparator gap) →
    tokens.length ≤ gaps.length + 1 → ∀ {read : List Char} {before : List Token},
    Reading read before (rendered tokens gaps) →
    ∃ tokens', Reading (read ++ rendered tokens gaps) (before ++ tokens') [] ∧
      tokens'.map content = tokens.map content := by
  induction tokens with
  | nil =>
    intro gaps _ _ read before h
    rw [rendered] at h ⊢
    exact ⟨[], by simpa using h, rfl⟩
  | cons t tokens ih =>
    intro gaps hgaps hlength read before h
    obtain ⟨hproper, htokens⟩ := List.forall_mem_cons.mp htokens
    rw [rendered] at h ⊢
    have hgap : Mixed (gaps.headD []) ∧
        ∀ d ∈ (gaps.headD [] ++ rendered tokens gaps.tail).head?, isSpace d = true := by
      cases gaps with
      | nil =>
        -- no gap is left for the last token only
        rw [List.length_cons] at hlength
        rw [List.eq_nil_of_length_eq_zero (Nat.le_zero.mp (Nat.le_of_succ_le_succ hlength))]
        exact ⟨.nil, fun d hd => nomatch hd⟩
      | cons gap gaps =>
        obtain ⟨hmixed, c, hc, hspace⟩ := hgaps gap (List.mem_cons_self ..)
        obtain ⟨cs, rfl⟩ := List.head?_eq_some_iff.mp hc
        refine ⟨hmixed, fun d hd => ?_⟩
        cases hd
        exact hspace
    obtain ⟨hmixed, hblank⟩ := hgap
    let placed : Token := ⟨t.kind, t.text, (Place.behind read).line, (Place.behind read).column⟩
    have hplaced : Reading (read ++ t.written) (before ++ [placed])
        ([] ++ (gaps.headD [] ++ rendered tokens gaps.tail)) :=
      .token (t := placed) h (hproper.lexes.longest_token hblank) rfl
    have hbehind := hplaced.over_mixed hmixed (fun c hc => nomatch hc)
      (rendered_head htokens gaps.tail)
    have hlength' : tokens.length ≤ gaps.tail.length + 1 := by
      rw [List.length_cons] at hlength
      rw [List.length_tail]
      omega
    obtain ⟨tokens', hread, hcontent⟩ :=
      ih htokens (fun gap hmem => hgaps gap (List.mem_of_mem_tail hmem)) hlength' hbehind
    refine ⟨placed :: tokens', by simpa using hread, ?_⟩
    rw [List.map_cons, List.map_cons, hcontent]
    rfl

/-- The lexer gives back all tokens that were written with separators between them. -/
theorem ofText_rendered (tokens : List Token) (gaps : List (List Char))
    (htokens : ∀ t ∈ tokens, t.Proper) (hgaps : ∀ gap ∈ gaps, IsSeparator gap)
    (hlength : tokens.length ≤ gaps.length + 1) :
    ∃ tokens', ofText (String.ofList (rendered tokens gaps)) = .ok tokens' ∧
      tokens'.map content = tokens.map content := by
  obtain ⟨tokens', hread, hcontent⟩ := Reading.start.over_rendered htokens hgaps hlength
  refine ⟨tokens', ofText_of_reading ?_, hcontent⟩
  rw [String.toList_ofList]
  exact hread

/-- A word that starts like a keyword, a mark that could start a comment, a number
before a point, and a text like a comment. -/
def lookalikes : List Token :=
  [⟨.word, "modules", 0, 0⟩, ⟨.divide, "/", 0, 0⟩, ⟨.number, "1.5", 0, 0⟩, ⟨.dot, ".", 0, 0⟩,
   ⟨.text, "//", 0, 0⟩]

/-- Blanks and comments to stand between them. -/
def commented : List (List Char) :=
  [[' '], ['\t', '/', '/', '"', '\n'], ['\n'], [' ', '/', '/', '\n', '\r']]

/-- They are read back. -/
theorem ofText_rendered_lookalikes :
    ((∀ t ∈ lookalikes, t.Proper) ∧ (∀ gap ∈ commented, IsSeparator gap) ∧
      lookalikes.length ≤ commented.length + 1) ∧
    ∃ tokens', ofText (String.ofList (rendered lookalikes commented)) = .ok tokens' ∧
      tokens'.map content = lookalikes.map content := by
  have htokens : ∀ t ∈ lookalikes, t.Proper := by
    have hword : IsWord "modules".toList ∧
        ∀ kind ∈ Kind.keywords, "modules" ≠ kind.spelling := by
      decide +kernel
    have hone : IsDigits ['1'] := ⟨by decide, List.forall_mem_singleton.mpr (by decide +kernel)⟩
    have hfive : IsDigits ['5'] := ⟨by decide, List.forall_mem_singleton.mpr (by decide +kernel)⟩
    have hnumber : IsDecimal "1.5" := .inr ⟨['1'], ['5'], hone, hfive, rfl⟩
    have htext : ∀ c ∈ "//".toList, c ≠ '"' ∧ c ≠ '\n' := by
      simp
    simp only [lookalikes, List.forall_mem_cons]
    exact ⟨hword, rfl, hnumber, rfl, htext, fun t ht => nomatch ht⟩
  have hgaps : ∀ gap ∈ commented, IsSeparator gap := by
    have hquote : Mixed ['/', '/', '"', '\n'] :=
      @Mixed.comment ['"'] _ (List.forall_mem_singleton.mpr (by decide)) .nil
    have hempty : Mixed ['/', '/', '\n', '\r'] :=
      @Mixed.comment [] _ (List.forall_mem_nil _) (.blank rfl .nil)
    simp only [commented, List.forall_mem_cons]
    exact ⟨⟨.blank rfl .nil, ' ', rfl, rfl⟩, ⟨.blank rfl hquote, '\t', rfl, rfl⟩,
      ⟨.blank rfl .nil, '\n', rfl, rfl⟩, ⟨.blank rfl hempty, ' ', rfl, rfl⟩,
      fun gap hgap => nomatch hgap⟩
  exact ⟨⟨htokens, hgaps, by decide⟩, ofText_rendered _ _ htokens hgaps (by decide)⟩

end Pseudocode.Token
