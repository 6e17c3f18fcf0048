import Pseudocode.Proofs.Lexing

/-!
# Lexemes

What can start at a place of a program text: a run of blanks, a comment, a word, a
number, a text in quotes or a mark (`Lexes`).  Often several of them do: `:` and `:=`,
`1` and `1.5`, `/` and a comment, a word and every beginning of it.  The lexer takes the
longest one (`Longest`).

The lexer does not look for all of them: it decides by the first character and takes what
that may start, as far as it goes.  That this is the longest lexeme is shown kind by kind.

> `lexeme?_complete`: it finds a lexeme wherever there is one, and none is longer; if
> two are equally long they make the same token.
>
> `Finds.lexes`: what it finds is a lexeme, and the text starts with it.

First characters tell the kinds apart (`isSpace_only`, `mark_only` and the like), with the
one exception of the slash, which starts a comment as well as a mark.  Among marks the order
of the table decides: longer ones come first (`marks_pairwise`), so the first that fits is
the longest.

Together: it finds just the longest lexeme (`Finds.longest`,
`Longest.finds`), or there is none (`Stuck`).
-/

namespace Pseudocode.Token

open Text Grammar

/-- The characters of a word; the first is not a digit. -/
def IsWord : List Char → Prop
  | [] => False
  | c :: rest => isWordStart c = true ∧ ∀ d ∈ rest, isWordChar d = true

instance : DecidablePred IsWord
  | [] => inferInstanceAs (Decidable False)
  | c :: rest =>
    decidable_of_iff (isWordStart c = true ∧ rest.all isWordChar = true)
      (and_congr_right' List.all_eq_true)

/-- The characters of a lexeme and the kind of the token that it makes, if it makes
one. -/
inductive Lexes : Option Kind → List Char → Prop where
  | blanks {cs} (ne_nil : cs ≠ []) (all : ∀ c ∈ cs, isSpace c = true) : Lexes none cs
  | comment {line} (inside : ∀ c ∈ line, c ≠ '\n') : Lexes none ('/' :: '/' :: line)
  | keyword {kind} (mem : kind ∈ Kind.keywords) : Lexes (some kind) kind.spelling.toList
  | word {cs} (word : IsWord cs)
      (own : ∀ kind ∈ Kind.keywords, kind.spelling.toList ≠ cs) : Lexes (some .word) cs
  | number {text : String} (decimal : IsDecimal text) : Lexes (some .number) text.toList
  | text {inside} (quoted : ∀ c ∈ inside, c ≠ '"' ∧ c ≠ '\n') :
      Lexes (some .text) ('"' :: (inside ++ ['"']))
  | mark {kind} (mem : kind ∈ Kind.marks) : Lexes (some kind) kind.spelling.toList

/-- The longest lexeme at the start of a text: `cs`, with `rest` behind it. -/
structure Longest (kind : Option Kind) (cs rest : List Char) : Prop where
  lexes : Lexes kind cs
  longest : ∀ kind' cs', Lexes kind' cs' → cs' <+: cs ++ rest → cs'.length ≤ cs.length

/-- There are characters, and no lexeme starts with them. -/
structure Stuck (cs : List Char) : Prop where
  ne_nil : cs ≠ []
  starts : ∀ kind cs', Lexes kind cs' → ¬ cs' <+: cs

/-! ## Characters -/

/-- There are five blanks. -/
theorem mem_spaces {c : Char} (h : isSpace c = true) :
    c ∈ [' ', '\t', '\x0c', '\r', '\n'] := by
  simpa [isSpace, or_assoc] using h

/-- A blank starts nothing else. -/
theorem isSpace_only {c : Char} (h : isSpace c = true) :
    isWordChar c = false ∧ isDigit c = false ∧ c ≠ '/' ∧ c ≠ '"' := by
  have hmem := mem_spaces h
  simp only [List.mem_cons, List.not_mem_nil, or_false] at hmem
  rcases hmem with rfl | rfl | rfl | rfl | rfl <;> decide +kernel

/-- A slash starts neither a word nor a number, and is no blank. -/
theorem slash_only : isSpace '/' = false ∧ isWordStart '/' = false ∧ isDigit '/' = false := by
  decide +kernel

/-- Nor does a quote. -/
theorem quote_only : isSpace '"' = false ∧ isWordStart '"' = false ∧ isDigit '"' = false := by
  decide +kernel

/-- The characters of marks are not those of anything else. -/
theorem mark_only : ∀ kind ∈ Kind.marks, ∀ c ∈ kind.spelling.toList,
    isSpace c = false ∧ isWordStart c = false ∧ isDigit c = false ∧ c ≠ '"' := by
  have hall : ∀ kind ∈ Kind.marks, (kind.spelling.toList.all fun c =>
      isSpace c = false ∧ isWordStart c = false ∧ isDigit c = false ∧ c ≠ '"') = true := by
    decide +kernel
  intro kind hmem c hc
  exact of_decide_eq_true (List.all_eq_true.mp (hall kind hmem) c hc)

/-- What starts a word is no blank. -/
theorem isSpace_of_isWordStart {c : Char} (h : isWordStart c = true) :
    isSpace c = false := by
  cases hspace : isSpace c with
  | false => rfl
  | true =>
    rw [isWordStart, (isSpace_only hspace).1] at h
    cases h

/-- A digit is no blank. -/
theorem isSpace_of_isDigit {c : Char} (h : isDigit c = true) : isSpace c = false := by
  cases hspace : isSpace c with
  | false => rfl
  | true =>
    rw [(isSpace_only hspace).2.1] at h
    cases h

/-- A digit starts no word. -/
theorem isWordStart_of_isDigit {c : Char} (h : isDigit c = true) :
    isWordStart c = false := by
  simp [isWordStart, h]

/-- Keywords are words. -/
theorem isWord_keyword : ∀ kind ∈ Kind.keywords, IsWord kind.spelling.toList := by
  decide +kernel

/-- The word of a keyword makes that keyword. -/
theorem ofWord_keyword : ∀ kind ∈ Kind.keywords,
    Kind.ofWord (String.ofList kind.spelling.toList) = kind := by
  decide +kernel

/-- Longer marks come first. -/
theorem marks_pairwise : Kind.marks.Pairwise fun a b =>
    b.spelling.toList.length ≤ a.spelling.toList.length := by
  decide +kernel

/-- No two marks are written alike. -/
theorem marks_spelling : ∀ a ∈ Kind.marks, ∀ b ∈ Kind.marks,
    a.spelling.toList = b.spelling.toList → a = b := by
  decide +kernel

/-- No mark is empty. -/
theorem spelling_positive : ∀ kind ∈ Kind.marks, 0 < kind.spelling.toList.length := by
  decide +kernel

/-- The only mark with a slash is the slash. -/
theorem slash_short : ∀ kind ∈ Kind.marks, '/' ∈ kind.spelling.toList →
    kind.spelling.toList.length ≤ 1 := by
  decide +kernel

/-! ## How far a class of characters goes -/

section

variable {p : Char → Bool} {cs rest : List Char}

/-- A class of characters goes on behind characters that are in it. -/
theorem span_append (h : ∀ c ∈ cs, p c = true) (rest : List Char) :
    span p (cs ++ rest) = cs.length + span p rest := by
  unfold span
  rw [List.takeWhile_append_of_pos h, List.length_append]

/-- It goes no further than the text. -/
theorem span_le_length (p : Char → Bool) (cs : List Char) : span p cs ≤ cs.length :=
  (List.takeWhile_prefix p).length_le

/-- A class of characters ends before a character that is not in it. -/
theorem span_eq_zero (h : ∀ c ∈ rest.head?, p c = false) : span p rest = 0 := by
  cases rest with
  | nil => rfl
  | cons c rest =>
    unfold span
    rw [List.takeWhile_cons, h c rfl]
    rfl

end

/-- A comment goes on behind its second slash. -/
theorem span_slash (rest : List Char) :
    span (· ≠ '\n') ('/' :: rest) = 1 + span (· ≠ '\n') rest :=
  @span_append _ ['/'] (by simp) rest

/-! ## What the lexer finds -/

/-- The lexer finds a lexeme of a length, which makes a token of a kind or none. -/
def Finds (c : Char) (rest : List Char) (kind : Option Kind) (length : Nat) : Prop :=
  ∃ lexeme, lexeme? c rest = some lexeme ∧ lexeme.kind = kind ∧ lexeme.length = length

section

variable {c : Char} {rest : List Char}

/-- The lexer finds one lexeme at a place. -/
theorem Finds.unique {kind kind' : Option Kind} {length length' : Nat}
    (h : Finds c rest kind length) (h' : Finds c rest kind' length') :
    kind = kind' ∧ length = length' := by
  obtain ⟨lexeme, hlexeme, rfl, rfl⟩ := h
  obtain ⟨lexeme', hlexeme', rfl, rfl⟩ := h'
  cases hlexeme.symm.trans hlexeme'
  exact ⟨rfl, rfl⟩

/-- At a blank it finds all blanks that follow. -/
theorem finds_blanks (h : isSpace c = true) : Finds c rest none (1 + span isSpace rest) := by
  unfold Finds
  rw [lexeme?, if_pos h]
  exact ⟨_, rfl, rfl, rfl⟩

/-- At two slashes it finds what is left of the line. -/
theorem finds_comment (h : rest.head? = some '/') :
    Finds '/' rest none (1 + span (· ≠ '\n') rest) := by
  unfold Finds
  rw [lexeme?, slash_only.1, if_neg Bool.false_ne_true, if_pos ⟨rfl, h⟩]
  exact ⟨_, rfl, rfl, rfl⟩

/-- What does not start with a slash is no comment. -/
theorem not_comment (h : c ≠ '/') : ¬ (c = '/' ∧ rest.head? = some '/') := fun hslash =>
  h hslash.1

/-- At a letter it finds the whole word. -/
theorem finds_word (h : isWordStart c = true) :
    Finds c rest (some (.ofWord (String.ofList ((c :: rest).take (1 + span isWordChar rest)))))
      (1 + span isWordChar rest) := by
  have hslash : c ≠ '/' := by
    rintro rfl
    exact Bool.false_ne_true (slash_only.2.1.symm.trans h)
  unfold Finds
  rw [lexeme?, isSpace_of_isWordStart h, if_neg Bool.false_ne_true,
    if_neg (not_comment hslash), if_pos h]
  exact ⟨_, rfl, rfl, rfl⟩

/-- At a digit it finds the digits, and a fraction if there is one. -/
theorem finds_number (h : isDigit c = true) :
    Finds c rest (some .number)
      (1 + span isDigit rest + fractionLength (rest.drop (span isDigit rest))) := by
  have hslash : c ≠ '/' := by
    rintro rfl
    exact Bool.false_ne_true (slash_only.2.2.symm.trans h)
  unfold Finds
  rw [lexeme?, isSpace_of_isDigit h, if_neg Bool.false_ne_true, if_neg (not_comment hslash),
    isWordStart_of_isDigit h, if_neg Bool.false_ne_true, if_pos h]
  exact ⟨_, rfl, rfl, rfl⟩

/-- At a quote it looks for the end of a text. -/
theorem lexeme?_quote : lexeme? '"' rest = quotedLexeme? rest := by
  obtain ⟨hspace, hword, hdigit⟩ := quote_only
  rw [lexeme?, hspace, if_neg Bool.false_ne_true, if_neg (by simp), hword,
    if_neg Bool.false_ne_true, hdigit, if_neg Bool.false_ne_true, if_pos rfl]

/-- All that is left are marks. -/
theorem lexeme?_otherwise (hspace : isSpace c = false)
    (hslash : ¬ (c = '/' ∧ rest.head? = some '/')) (hword : isWordStart c = false)
    (hdigit : isDigit c = false) (hquote : c ≠ '"') :
    lexeme? c rest = markLexeme? (c :: rest) := by
  rw [lexeme?, hspace, if_neg Bool.false_ne_true, if_neg hslash, hword,
    if_neg Bool.false_ne_true, hdigit, if_neg Bool.false_ne_true, if_neg hquote]

/-- A text in quotes is found. -/
theorem finds_text {inside : List Char} (h : ∀ c ∈ inside, c ≠ '"' ∧ c ≠ '\n') :
    Finds '"' (inside ++ '"' :: rest) (some .text) (inside.length + 2) := by
  have hspan : span (fun c => c ≠ '"' && c ≠ '\n') (inside ++ '"' :: rest) =
      inside.length := by
    rw [span_append fun c hc => by simpa using h c hc, span_eq_zero]
    · rfl
    · intro c hc
      cases hc
      rfl
  have hquote : (inside ++ '"' :: rest)[
      span (fun c => c ≠ '"' && c ≠ '\n') (inside ++ '"' :: rest)]? = some '"' := by
    rw [hspan]
    simp
  unfold Finds
  rw [lexeme?_quote, quotedLexeme?, if_pos hquote]
  exact ⟨_, rfl, rfl, congrArg (· + 2) hspan⟩

/-- A mark that is found in the table is the lexeme. -/
theorem markLexeme?_of_find? {cs : List Char} {kind : Kind}
    (h : Kind.marks.find? (fun kind => kind.spelling.toList.isPrefixOf cs) = some kind) :
    ∃ lexeme, markLexeme? cs = some lexeme ∧ lexeme.kind = some kind ∧
      lexeme.length = kind.spelling.toList.length := by
  have hpositive := spelling_positive kind (List.mem_of_find?_eq_some h)
  unfold markLexeme?
  rw [h]
  dsimp only
  rw [dif_pos hpositive]
  exact ⟨_, rfl, rfl, rfl⟩

end

/-! ## It finds what is there -/

/-- What is found in a list where everything before something is at least as good. -/
theorem exists_find? {α : Type} {p : α → Bool} {before : α → α → Prop} {a : α} :
    ∀ {as : List α}, as.Pairwise before → a ∈ as → p a = true →
      ∃ b ∈ as, as.find? p = some b ∧ p b = true ∧ (b = a ∨ before b a)
  | b :: as, hpairwise, hmem, ha => by
    obtain ⟨hfirst, hpairwise⟩ := List.pairwise_cons.mp hpairwise
    cases hb : p b with
    | true =>
      refine ⟨b, List.mem_cons_self .., by rw [List.find?_cons, hb], hb, ?_⟩
      rcases List.mem_cons.mp hmem with rfl | hmem
      · exact .inl rfl
      · exact .inr (hfirst a hmem)
    | false =>
      rcases List.mem_cons.mp hmem with rfl | hmem
      · rw [ha] at hb
        cases hb
      · obtain ⟨found, hfound, hfind, hrest⟩ := exists_find? hpairwise hmem ha
        refine ⟨found, List.mem_cons_of_mem _ hfound, ?_, hrest⟩
        rw [List.find?_cons, hb]
        exact hfind

/-- The first mark that fits is the longest one. -/
theorem markLexeme?_complete {kind : Kind} {cs : List Char} (hmem : kind ∈ Kind.marks)
    (h : kind.spelling.toList <+: cs) :
    ∃ lexeme, markLexeme? cs = some lexeme ∧
      kind.spelling.toList.length ≤ lexeme.length ∧
      (lexeme.length = kind.spelling.toList.length → lexeme.kind = some kind) := by
  obtain ⟨found, hfound, hfind, hfits, hbefore⟩ :=
    exists_find? (p := fun kind => kind.spelling.toList.isPrefixOf cs) marks_pairwise hmem
      (List.isPrefixOf_iff_prefix.mpr h)
  obtain ⟨lexeme, hlexeme, hkind, hlength⟩ := markLexeme?_of_find? hfind
  refine ⟨lexeme, hlexeme, ?_, fun heq => ?_⟩
  · rcases hbefore with rfl | hle
    · exact Nat.le_of_eq hlength.symm
    · omega
  · -- two beginnings of the same length are the same
    have hbegins := List.isPrefixOf_iff_prefix.mp hfits
    have hsame : found.spelling.toList = kind.spelling.toList :=
      (List.prefix_of_prefix_length_le hbegins h (by omega)).eq_of_length (by omega)
    rw [hkind, marks_spelling found hfound kind hmem hsame]

/-- A fraction is a point and all digits behind it. -/
theorem fractionLength_point {c : Char} (h : isDigit c = true) (rest : List Char) :
    fractionLength ('.' :: c :: rest) = 2 + span isDigit rest := by
  rw [fractionLength, if_pos h]

/-- How far the lexer goes in a number with a fraction: the digits before the point end
there, for a point is no digit. -/
theorem fraction_length {whole fraction : List Char} (hwhole : ∀ c ∈ whole, isDigit c = true)
    (hfraction : IsDigits fraction) (rest : List Char) :
    let behind := whole ++ '.' :: fraction ++ rest
    span isDigit behind + fractionLength (behind.drop (span isDigit behind)) =
      whole.length + 1 + fraction.length + span isDigit rest := by
  obtain ⟨hne, hall⟩ := hfraction
  obtain ⟨d, fraction, rfl⟩ := List.exists_cons_of_ne_nil hne
  obtain ⟨hdigit, hall⟩ := List.forall_mem_cons.mp hall
  have hspan : span isDigit (whole ++ '.' :: d :: fraction ++ rest) = whole.length := by
    rw [List.append_assoc, span_append hwhole, span_eq_zero]
    · rfl
    · intro c hc
      cases hc
      decide +kernel
  dsimp only
  rw [hspan, List.append_assoc, List.drop_left]
  show _ + fractionLength ('.' :: d :: (fraction ++ rest)) = _
  rw [fractionLength_point hdigit, span_append hall, List.length_cons]
  omega

/-- A number that a text starts with is not longer than the one that the lexer finds. -/
theorem number_complete {text : String} (h : IsDecimal text) {c : Char} {rest : List Char}
    (hbegins : text.toList <+: c :: rest) :
    ∃ length, Finds c rest (some .number) length ∧ text.toList.length ≤ length := by
  rcases h with ⟨hne, hall⟩ | ⟨whole, fraction, ⟨hne, hall⟩, hfraction, htext⟩
  · generalize text.toList = cs at hne hall hbegins
    obtain ⟨d, cs, rfl⟩ := List.exists_cons_of_ne_nil hne
    obtain ⟨rfl, more, rfl⟩ := List.cons_prefix_cons.mp hbegins
    obtain ⟨hdigit, hall⟩ := List.forall_mem_cons.mp hall
    refine ⟨_, finds_number hdigit, ?_⟩
    rw [span_append hall, List.length_cons]
    omega
  · rw [htext] at hbegins ⊢
    obtain ⟨d, whole, rfl⟩ := List.exists_cons_of_ne_nil hne
    rw [List.cons_append] at hbegins ⊢
    obtain ⟨rfl, more, rfl⟩ := List.cons_prefix_cons.mp hbegins
    obtain ⟨hdigit, hall⟩ := List.forall_mem_cons.mp hall
    refine ⟨_, finds_number hdigit, ?_⟩
    have hlength := fraction_length hall hfraction more
    simp only [List.length_cons, List.length_append] at hlength ⊢
    omega

/-- A word that is no keyword is a word. -/
theorem ofWord_own {cs : List Char}
    (h : ∀ kind ∈ Kind.keywords, kind.spelling.toList ≠ cs) :
    Kind.ofWord (String.ofList cs) = .word := by
  unfold Kind.ofWord
  rw [List.find?_eq_none.mpr]
  · rfl
  · intro kind hmem heq
    rw [decide_eq_true_eq] at heq
    refine h kind hmem ?_
    rw [heq, String.toList_ofList]

/-- A word that a text starts with is not longer than the one that the lexer finds. -/
theorem word_complete {cs : List Char} {kind : Kind} (h : IsWord cs)
    (hkind : Kind.ofWord (String.ofList cs) = kind) {c : Char} {rest : List Char}
    (hbegins : cs <+: c :: rest) :
    ∃ kind' length, Finds c rest kind' length ∧ cs.length ≤ length ∧
      (length = cs.length → kind' = some kind) := by
  cases cs with
  | nil => exact h.elim
  | cons d cs =>
    obtain ⟨hstart, hall⟩ := h
    obtain ⟨rfl, more, rfl⟩ := List.cons_prefix_cons.mp hbegins
    refine ⟨_, _, finds_word hstart, ?_, fun heq => ?_⟩
    · rw [span_append hall, List.length_cons]
      omega
    · rw [heq, ← List.cons_append, List.take_left, hkind]

/-- Wherever a lexeme starts, the lexer finds one that is not shorter; and if it is not
longer, either, it makes the same token. -/
theorem lexeme?_complete {kind : Option Kind} {cs : List Char} (h : Lexes kind cs)
    {c : Char} {rest : List Char} (hbegins : cs <+: c :: rest) :
    ∃ kind' length, Finds c rest kind' length ∧ cs.length ≤ length ∧
      (length = cs.length → kind' = kind) := by
  cases h with
  | blanks hne hall =>
    obtain ⟨d, cs, rfl⟩ := List.exists_cons_of_ne_nil hne
    obtain ⟨rfl, more, rfl⟩ := List.cons_prefix_cons.mp hbegins
    obtain ⟨hspace, hall⟩ := List.forall_mem_cons.mp hall
    refine ⟨_, _, finds_blanks hspace, ?_, fun _ => rfl⟩
    rw [span_append hall, List.length_cons]
    omega
  | @comment line hline =>
    obtain ⟨rfl, more, rfl⟩ := List.cons_prefix_cons.mp hbegins
    refine ⟨_, _, finds_comment rfl, ?_, fun _ => rfl⟩
    have hall : ∀ c ∈ '/' :: line, decide (c ≠ '\n') = true := by
      simpa using hline
    rw [span_append hall, List.length_cons]
    omega
  | keyword hmem => exact word_complete (isWord_keyword _ hmem) (ofWord_keyword _ hmem) hbegins
  | word hword hown => exact word_complete hword (ofWord_own hown) hbegins
  | number hdecimal =>
    obtain ⟨length, hfinds, hle⟩ := number_complete hdecimal hbegins
    exact ⟨_, length, hfinds, hle, fun _ => rfl⟩
  | @text inside hquoted =>
    obtain ⟨rfl, more, rfl⟩ := List.cons_prefix_cons.mp hbegins
    rw [List.append_assoc]
    refine ⟨_, _, finds_text hquoted, ?_, fun _ => rfl⟩
    simp
  | @mark kind hmem =>
    have hc : c ∈ kind.spelling.toList := by
      have hpositive := spelling_positive kind hmem
      generalize kind.spelling.toList = cs at hbegins hpositive
      obtain ⟨d, cs, rfl⟩ := List.exists_cons_of_length_pos hpositive
      obtain ⟨rfl, -⟩ := List.cons_prefix_cons.mp hbegins
      exact List.mem_cons_self ..
    obtain ⟨hspace, hword, hdigit, hquote⟩ := mark_only kind hmem c hc
    by_cases hslash : c = '/' ∧ rest.head? = some '/'
    · -- a comment starts there, and it is longer
      obtain ⟨rfl, hhead⟩ := hslash
      obtain ⟨more, rfl⟩ : ∃ more, rest = '/' :: more :=
        List.head?_eq_some_iff.mp hhead
      have hshort : kind.spelling.toList.length ≤ 1 := slash_short kind hmem hc
      have hlong := span_slash more
      refine ⟨_, _, finds_comment hhead, by omega, fun heq => ?_⟩
      omega
    · obtain ⟨lexeme, hlexeme, hle, hkind⟩ := markLexeme?_complete hmem hbegins
      refine ⟨_, _, ⟨lexeme, ?_, rfl, rfl⟩, hle, hkind⟩
      rw [lexeme?_otherwise hspace hslash hword hdigit hquote, hlexeme]

/-! ## What it finds is there -/

/-- How far a class goes is where a text is split. -/
theorem span_split (p : Char → Bool) (cs : List Char) :
    ∃ more, cs = cs.takeWhile p ++ more ∧ (cs.takeWhile p).length = span p cs :=
  ⟨cs.dropWhile p, List.takeWhile_append_dropWhile.symm, rfl⟩

/-- What is taken of a class is in the class. -/
theorem all_takeWhile (p : Char → Bool) (cs : List Char) :
    ∀ c ∈ cs.takeWhile p, p c = true :=
  List.all_eq_true.mp List.all_takeWhile

/-- A fraction goes no further than the text. -/
theorem fractionLength_le (cs : List Char) : fractionLength cs ≤ cs.length := by
  unfold fractionLength
  split
  · next c rest =>
    have hle := span_le_length isDigit rest
    split <;> simp only [List.length_cons] <;> omega
  · omega

/-- A whole word is a keyword, or it is none. -/
theorem lexes_word {cs : List Char} (h : IsWord cs) :
    Lexes (some (.ofWord (String.ofList cs))) cs := by
  unfold Kind.ofWord
  cases hfind : Kind.keywords.find? fun kind => kind.spelling = String.ofList cs with
  | none =>
    refine .word h fun kind hmem heq => ?_
    have hne := List.find?_eq_none.mp hfind kind hmem
    rw [← heq, String.ofList_toList, decide_eq_true_eq] at hne
    exact hne rfl
  | some kind =>
    have hspelling := List.find?_some hfind
    simp only [decide_eq_true_eq] at hspelling
    have hkeyword := Lexes.keyword (List.mem_of_find?_eq_some hfind)
    rwa [hspelling, String.toList_ofList] at hkeyword

/-- A text in quotes that was found is one. -/
theorem quotedLexeme?_lexes {rest : List Char} {lexeme : Lexeme}
    (h : quotedLexeme? rest = some lexeme) :
    ∃ cs more, '"' :: rest = cs ++ more ∧ cs.length = lexeme.length ∧
      Lexes lexeme.kind cs := by
  let p : Char → Bool := fun c => c ≠ '"' && c ≠ '\n'
  unfold quotedLexeme? at h
  dsimp only at h
  split at h
  · next hquote =>
    cases h
    obtain ⟨hlt, hget⟩ := List.getElem?_eq_some_iff.mp hquote
    have hsplit : rest = rest.takeWhile p ++ '"' :: rest.drop (span p rest + 1) := by
      rw [← take_span p rest, ← hget, ← List.drop_eq_getElem_cons hlt,
        List.take_append_drop]
    refine ⟨'"' :: (rest.takeWhile p ++ ['"']), rest.drop (span p rest + 1), ?_, ?_,
      .text fun c hc => ?_⟩
    · rw [List.cons_append, List.append_assoc]
      exact congrArg _ hsplit
    · rw [List.length_cons, List.length_append]
      rfl
    · simpa [p] using all_takeWhile p rest c hc
  · cases h

/-- A mark that was found is one. -/
theorem markLexeme?_lexes {cs : List Char} {lexeme : Lexeme}
    (h : markLexeme? cs = some lexeme) :
    ∃ cs' more, cs = cs' ++ more ∧ cs'.length = lexeme.length ∧ Lexes lexeme.kind cs' := by
  cases hfind : Kind.marks.find? fun kind => kind.spelling.toList.isPrefixOf cs with
  | none =>
    rw [markLexeme?, hfind] at h
    cases h
  | some kind =>
    obtain ⟨lexeme', hlexeme, hkind, hlength⟩ := markLexeme?_of_find? hfind
    cases h.symm.trans hlexeme
    have hfits := List.find?_some hfind
    obtain ⟨more, hmore⟩ := List.isPrefixOf_iff_prefix.mp hfits
    refine ⟨_, more, hmore.symm, hlength.symm, ?_⟩
    rw [hkind]
    exact .mark (List.mem_of_find?_eq_some hfind)

/-- What the lexer finds is a lexeme, and the text starts with it. -/
theorem Finds.lexes {c : Char} {rest : List Char} {kind : Option Kind} {length : Nat}
    (h : Finds c rest kind length) :
    ∃ cs more, c :: rest = cs ++ more ∧ cs.length = length ∧ Lexes kind cs := by
  by_cases hspace : isSpace c = true
  · obtain ⟨rfl, rfl⟩ := h.unique (finds_blanks hspace)
    obtain ⟨more, hsplit, hlength⟩ := span_split isSpace rest
    refine ⟨c :: rest.takeWhile isSpace, more, congrArg _ hsplit, ?_,
      .blanks (List.cons_ne_nil _ _) ?_⟩
    · rw [List.length_cons, hlength, Nat.add_comm]
    · exact List.forall_mem_cons.mpr ⟨hspace, all_takeWhile _ _⟩
  by_cases hslash : c = '/' ∧ rest.head? = some '/'
  · obtain ⟨rfl, hhead⟩ := hslash
    obtain ⟨rfl, rfl⟩ := h.unique (finds_comment hhead)
    obtain ⟨line, rfl⟩ := List.head?_eq_some_iff.mp hhead
    obtain ⟨more, hsplit, hlength⟩ := span_split (· ≠ '\n') line
    refine ⟨'/' :: '/' :: line.takeWhile (· ≠ '\n'), more,
      congrArg (fun cs => '/' :: '/' :: cs) hsplit, ?_, .comment fun c hc => ?_⟩
    · rw [List.length_cons, List.length_cons, hlength, span_slash]
      omega
    · exact of_decide_eq_true (all_takeWhile (· ≠ '\n') line c hc)
  by_cases hstart : isWordStart c = true
  · obtain ⟨rfl, rfl⟩ := h.unique (finds_word hstart)
    obtain ⟨more, hsplit, hlength⟩ := span_split isWordChar rest
    have htake : (c :: rest).take (1 + span isWordChar rest) =
        c :: rest.takeWhile isWordChar := by
      rw [Nat.add_comm, List.take_succ_cons, take_span]
    refine ⟨c :: rest.takeWhile isWordChar, more, congrArg _ hsplit, ?_, ?_⟩
    · rw [List.length_cons, hlength, Nat.add_comm]
    · rw [htake]
      exact lexes_word ⟨hstart, all_takeWhile _ _⟩
  by_cases hdigit : isDigit c = true
  · obtain ⟨rfl, rfl⟩ := h.unique (finds_number hdigit)
    have hle := span_le_length isDigit rest
    have hle' := fractionLength_le (rest.drop (span isDigit rest))
    have hdecimal := Lexes.number (take_number hdigit rest)
    rw [String.toList_ofList] at hdecimal
    refine ⟨_, _, (List.take_append_drop _ _).symm, ?_, hdecimal⟩
    rw [List.length_take, List.length_cons]
    rw [List.length_drop] at hle'
    omega
  obtain ⟨lexeme, hlexeme, rfl, rfl⟩ := h
  by_cases hquote : c = '"'
  · subst hquote
    rw [lexeme?_quote] at hlexeme
    exact quotedLexeme?_lexes hlexeme
  · rw [lexeme?_otherwise (Bool.not_eq_true _ ▸ hspace) hslash (Bool.not_eq_true _ ▸ hstart)
      (Bool.not_eq_true _ ▸ hdigit) hquote] at hlexeme
    exact markLexeme?_lexes hlexeme

/-! ## The longest lexeme -/

/-- No lexeme is empty. -/
theorem Lexes.ne_nil {kind : Option Kind} {cs : List Char} (h : Lexes kind cs) : cs ≠ [] := by
  cases h with
  | blanks hne => exact hne
  | comment => exact List.cons_ne_nil _ _
  | keyword hmem =>
    intro hnil
    have hword := isWord_keyword _ hmem
    rw [hnil] at hword
    exact hword
  | word hword =>
    intro hnil
    rw [hnil] at hword
    exact hword
  | number hdecimal =>
    rcases hdecimal with ⟨hne, -⟩ | ⟨whole, fraction, -, -, htext⟩
    · exact hne
    · rw [htext]
      simp
  | text => exact List.cons_ne_nil _ _
  | mark hmem => exact List.ne_nil_of_length_pos (spelling_positive _ hmem)

/-- The lexer finds the longest lexeme. -/
theorem Finds.longest {c : Char} {rest : List Char} {kind : Option Kind} {length : Nat}
    (h : Finds c rest kind length) :
    ∃ cs more, c :: rest = cs ++ more ∧ cs.length = length ∧ Longest kind cs more := by
  obtain ⟨cs, more, hsplit, hlength, hlexes⟩ := h.lexes
  refine ⟨cs, more, hsplit, hlength, hlexes, fun kind' cs' hlexes' hbegins => ?_⟩
  rw [← hsplit] at hbegins
  obtain ⟨kind'', length', hfinds, hle, -⟩ := lexeme?_complete hlexes' hbegins
  obtain ⟨-, rfl⟩ := h.unique hfinds
  rwa [hlength]

/-- The longest lexeme is found. -/
theorem Longest.finds {c : Char} {cs rest : List Char} {kind : Option Kind}
    (h : Longest kind (c :: cs) rest) : Finds c (cs ++ rest) kind (c :: cs).length := by
  obtain ⟨kind', length, hfinds, hle, hkind⟩ :=
    lexeme?_complete h.lexes (List.prefix_append (c :: cs) rest)
  obtain ⟨cs', more, hsplit, rfl, hlexes⟩ := hfinds.lexes
  have hle' := h.longest kind' cs' hlexes ⟨more, hsplit.symm⟩
  have heq : cs'.length = (c :: cs).length := Nat.le_antisymm hle' hle
  rw [hkind heq, heq] at hfinds
  exact hfinds

/-- Where nothing is found, no lexeme starts. -/
theorem stuck_of_none {c : Char} {rest : List Char} (h : lexeme? c rest = none) :
    Stuck (c :: rest) := by
  refine ⟨List.cons_ne_nil _ _, fun kind cs hlexes hbegins => ?_⟩
  obtain ⟨kind', length, ⟨lexeme, hlexeme, -⟩, -⟩ := lexeme?_complete hlexes hbegins
  rw [h] at hlexeme
  cases hlexeme

/-- Where no lexeme starts, the lexer finds nothing. -/
theorem Stuck.none {c : Char} {rest : List Char} (h : Stuck (c :: rest)) :
    lexeme? c rest = none := by
  cases hlexeme : lexeme? c rest with
  | none => rfl
  | some lexeme =>
    obtain ⟨cs, more, hsplit, -, hlexes⟩ := Finds.lexes ⟨lexeme, hlexeme, rfl, rfl⟩
    exact absurd ⟨more, hsplit.symm⟩ (h.starts _ cs hlexes)

/-- A text is a lexeme of one kind only. -/
theorem Lexes.unique {kind kind' : Option Kind} {cs : List Char} (h : Lexes kind cs)
    (h' : Lexes kind' cs) : kind = kind' := by
  obtain ⟨c, cs, rfl⟩ := List.exists_cons_of_ne_nil h.ne_nil
  have hlongest : ∀ {kind}, Lexes kind (c :: cs) → Longest kind (c :: cs) [] := fun h =>
    ⟨h, fun _ _ _ hbegins => by simpa using hbegins.length_le⟩
  exact ((hlongest h).finds.unique (hlongest h').finds).1

/-- A lexeme makes a keyword just if it is that keyword as a whole. -/
theorem Lexes.keyword_iff {kind kind' : Kind} {cs : List Char} (h : Lexes (some kind) cs)
    (hmem : kind' ∈ Kind.keywords) : kind = kind' ↔ cs = kind'.spelling.toList := by
  constructor
  · rintro rfl
    cases h with
    | keyword => rfl
    | word => exact absurd hmem (by decide)
    | number => exact absurd hmem (by decide)
    | text => exact absurd hmem (by decide)
    | mark => rfl
  · rintro rfl
    exact Option.some.inj (h.unique (.keyword hmem))

end Pseudocode.Token
