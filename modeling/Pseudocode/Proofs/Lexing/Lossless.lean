import Pseudocode.Proofs.Lexing.Lexemes

/-!
# A program text is what was read from it

A reading of a text takes the longest lexeme again and again (`Reading`): what is read is
always gaps and tokens as they are written, in their order, and every token knows its
place, which can be counted in what stands before it (`Place.behind`).  The lexer's
counters are these counts (`advance_behind`), and scanning follows every reading
(`Reading.scan`).  As there is always a reading that ends at the end of the text or
where no lexeme starts (`exists_reading`), the lexer has read the text exactly, or has
complained about the one place where it cannot go on.
-/

namespace Pseudocode.Token

/-- A token as it stands in a program text: the quotes of a text are restored. -/
def written (t : Token) : List Char :=
  match t.kind with
  | .text => '"' :: (t.text.toList ++ ['"'])
  | _ => t.text.toList

/-- The place behind some characters, counted in them: lines by line feeds, columns by
the characters since the last one. -/
def Place.behind (read : List Char) : Place :=
  ⟨1 + read.count '\n', 1 + (read.reverse.takeWhile (· ≠ '\n')).length⟩

/-- A text has been read up to `rest`: what was read is gaps and tokens, each the
longest lexeme that starts at its place. -/
inductive Reading : List Char → List Token → List Char → Prop where
  | start {rest} : Reading [] [] rest
  | gap {read tokens cs rest} (before : Reading read tokens (cs ++ rest))
      (longest : Longest none cs rest) : Reading (read ++ cs) tokens rest
  | token {read tokens t rest} (before : Reading read tokens (t.written ++ rest))
      (longest : Longest (some t.kind) t.written rest)
      (place : Place.behind read = ⟨t.line, t.column⟩) :
      Reading (read ++ t.written) (tokens ++ [t]) rest

/-! ## Places -/

/-- One character more moves the place on. -/
theorem Place.step_behind (read : List Char) (c : Char) :
    (Place.behind read).step c = Place.behind (read ++ [c]) := by
  unfold Place.step Place.behind
  rw [List.count_append, List.reverse_append, List.reverse_singleton, List.singleton_append,
    List.takeWhile_cons]
  by_cases h : c = '\n'
  · subst h
    simp [Nat.add_assoc]
  · simp [h, Nat.add_comm]

/-- The counters of the lexer count what was read. -/
theorem Place.advance_behind (read cs : List Char) :
    (Place.behind read).advance cs = Place.behind (read ++ cs) := by
  induction cs generalizing read with
  | nil => rw [List.append_nil]; rfl
  | cons c cs ih =>
    calc (Place.behind read).advance (c :: cs)
        = ((Place.behind read).step c).advance cs := rfl
      _ = (Place.behind (read ++ [c])).advance cs := by rw [step_behind]
      _ = Place.behind (read ++ c :: cs) := by rw [ih, List.append_assoc, List.singleton_append]

/-! ## Texts of tokens -/

/-- The text of a token is what is written of it, less the quotes of a text. -/
theorem lexemeText_written (t : Token) : lexemeText t.kind t.written = t.text := by
  by_cases hkind : t.kind = .text
  · unfold lexemeText written
    rw [hkind]
    simp
  · have hread : lexemeText t.kind t.written = String.ofList t.written := by
      unfold lexemeText
      split
      · exact absurd ‹_› hkind
      · rfl
    have hwritten : t.written = t.text.toList := by
      unfold written
      split
      · exact absurd ‹_› hkind
      · rfl
    rw [hread, hwritten, String.ofList_toList]

/-- A lexeme is the token it makes, as it is written. -/
theorem Lexes.written {kind : Kind} {cs : List Char} (h : Lexes (some kind) cs)
    (line column : Nat) : Token.written ⟨kind, lexemeText kind cs, line, column⟩ = cs := by
  have hplain : kind ≠ .text →
      Token.written ⟨kind, lexemeText kind cs, line, column⟩ = cs := by
    intro hkind
    unfold Token.written lexemeText
    simp
  cases h with
  | text => simp [Token.written, lexemeText]
  | keyword hmem => exact hplain (by rintro rfl; exact absurd hmem (by decide))
  | mark hmem => exact hplain (by rintro rfl; exact absurd hmem (by decide))
  | word => exact hplain (by decide)
  | number => exact hplain (by decide)

/-! ## Scanning follows a reading -/

/-- One step of the lexer takes the longest lexeme. -/
theorem scan_longest {kind : Option Kind} {cs rest : List Char} (place : Place)
    (found : List Token) : Longest kind cs rest →
    scan place found (cs ++ rest) = scan (place.advance cs)
      (match kind with
        | none => found
        | some kind => ⟨kind, lexemeText kind cs, place.line, place.column⟩ :: found)
      rest := by
  intro h
  obtain ⟨c, cs, rfl⟩ := List.exists_cons_of_ne_nil h.lexes.ne_nil
  obtain ⟨lexeme, hlexeme, rfl, hlength⟩ := h.finds
  rw [List.cons_append, scan, hlexeme]
  dsimp only
  rw [hlength, ← List.cons_append, List.take_left]
  exact congrArg (scan (place.advance (c :: cs)) _) List.drop_left

/-- Where no lexeme starts, the lexer complains about that place. -/
theorem scan_stuck {rest : List Char} (h : Stuck rest) (place : Place)
    (found : List Token) :
    scan place found rest = .error (.parse (.unexpectedCharacter place.line place.column)) := by
  obtain ⟨c, rest, rfl⟩ := List.exists_cons_of_ne_nil h.ne_nil
  rw [scan, h.none]

/-- Whatever has been read, the lexer is there with the same tokens. -/
theorem Reading.scan {read rest : List Char} {tokens : List Token}
    (h : Reading read tokens rest) :
    scan ⟨1, 1⟩ [] (read ++ rest) = Token.scan (Place.behind read) tokens.reverse rest := by
  induction h with
  | start => rfl
  | @gap read tokens cs rest before longest ih =>
    rw [List.append_assoc, ih, scan_longest _ _ longest, Place.advance_behind]
  | @token read tokens t rest before longest place ih =>
    rw [List.append_assoc, ih, scan_longest _ _ longest, Place.advance_behind, place]
    dsimp only
    rw [lexemeText_written, List.reverse_append, List.reverse_singleton,
      List.singleton_append]

/-! ## There is a reading of every text -/

/-- One more lexeme is read. -/
theorem Reading.next {read cs rest : List Char} {tokens : List Token} {kind : Option Kind}
    (h : Reading read tokens (cs ++ rest)) (longest : Longest kind cs rest) :
    ∃ tokens', Reading (read ++ cs) tokens' rest := by
  cases kind with
  | none => exact ⟨tokens, h.gap longest⟩
  | some kind =>
    have hwritten := longest.lexes.written (Place.behind read).line (Place.behind read).column
    have hnext := Reading.token (by rwa [hwritten]) (by rwa [hwritten]) rfl
    rw [hwritten] at hnext
    exact ⟨_, hnext⟩

/-- A reading goes on to the end of the text, or to where nothing starts. -/
theorem Reading.onward {read rest : List Char} {tokens : List Token}
    (h : Reading read tokens rest) :
    ∃ read' tokens' rest', read ++ rest = read' ++ rest' ∧ Reading read' tokens' rest' ∧
      (rest' = [] ∨ Stuck rest') := by
  -- every lexeme has characters, so the rest gets shorter
  induction hlength : rest.length using Nat.strongRecOn generalizing read rest tokens with
  | ind length ih =>
    cases rest with
    | nil => exact ⟨read, tokens, [], rfl, h, .inl rfl⟩
    | cons c rest =>
      cases hlexeme : lexeme? c rest with
      | none => exact ⟨read, tokens, c :: rest, rfl, h, .inr (stuck_of_none hlexeme)⟩
      | some lexeme =>
        obtain ⟨cs, more, hsplit, -, hlongest⟩ :=
          Finds.longest ⟨lexeme, hlexeme, rfl, rfl⟩
        rw [hsplit] at h hlength ⊢
        obtain ⟨tokens', hnext⟩ := h.next hlongest
        have hpositive := List.length_pos_iff.mpr hlongest.lexes.ne_nil
        rw [List.length_append] at hlength
        obtain ⟨read', tokens'', rest', hread, hends⟩ :=
          ih more.length (by omega) hnext rfl
        exact ⟨read', tokens'', rest', by rw [← List.append_assoc, hread], hends⟩

/-- Every text is read to its end, or to a place where no lexeme starts. -/
theorem exists_reading (cs : List Char) :
    ∃ read tokens rest, cs = read ++ rest ∧ Reading read tokens rest ∧
      (rest = [] ∨ Stuck rest) :=
  Reading.start.onward

/-! ## The lexer -/

/-- A reading to the end gives the tokens of the text. -/
theorem ofText_of_reading {source : String} {tokens : List Token}
    (h : Reading source.toList tokens []) : ofText source = .ok tokens := by
  have hscan := h.scan
  rw [List.append_nil, Token.scan, List.reverse_reverse] at hscan
  exact hscan

/-- A reading that cannot go on is refused. -/
theorem ofText_of_stuck {source : String} {read rest : List Char} {tokens : List Token}
    (hsource : source.toList = read ++ rest) (h : Reading read tokens rest)
    (hstuck : Stuck rest) :
    ofText source = .error (.parse (.unexpectedCharacter (Place.behind read).line
      (Place.behind read).column)) := by
  unfold ofText
  rw [hsource, h.scan, scan_stuck hstuck]

/-- The tokens of a reading are lexemes. -/
theorem Reading.lexes {read rest : List Char} {tokens : List Token}
    (h : Reading read tokens rest) : ∀ t ∈ tokens, Lexes (some t.kind) t.written := by
  induction h with
  | start => exact fun t ht => absurd ht List.not_mem_nil
  | gap before longest ih => exact ih
  | token before longest place ih =>
    intro t ht
    rcases List.mem_append.mp ht with ht | ht
    · exact ih t ht
    · rw [List.mem_singleton.mp ht]
      exact longest.lexes

/-- The lexer gives tokens just if the text is those tokens, written one after another
with gaps between them, each the longest lexeme at its place and each at the place that
it gives; a keyword is just a word that is this keyword as a whole.  It refuses a text
just if a reading of it comes to a character where no lexeme starts, and it names the
place of that character. -/
theorem ofText_lossless (source : String) :
    (∀ tokens, ofText source = .ok tokens ↔ Reading source.toList tokens []) ∧
    (∀ tokens, ofText source = .ok tokens → ∀ t ∈ tokens, ∀ kind ∈ Kind.keywords,
      (t.kind = kind ↔ t.written = kind.spelling.toList)) ∧
    (∀ fault, ofText source = .error fault ↔
      ∃ read tokens rest, source.toList = read ++ rest ∧ Reading read tokens rest ∧
        Stuck rest ∧ fault = .parse (.unexpectedCharacter (Place.behind read).line
          (Place.behind read).column)) ∧
    (∀ line column, (Fault.parse (.unexpectedCharacter line column)).message =
      "unexpected character at " ++ toString line ++ ":" ++ toString column) := by
  have hends : (∃ tokens, Reading source.toList tokens []) ∨
      ∃ read tokens rest, source.toList = read ++ rest ∧ Reading read tokens rest ∧
        Stuck rest := by
    obtain ⟨read, tokens, rest, hsource, hreading, rfl | hstuck⟩ := exists_reading source.toList
    · rw [List.append_nil] at hsource
      exact .inl ⟨tokens, hsource ▸ hreading⟩
    · exact .inr ⟨read, tokens, rest, hsource, hreading, hstuck⟩
  have hok : ∀ tokens, ofText source = .ok tokens ↔ Reading source.toList tokens [] := by
    refine fun tokens => ⟨fun h => ?_, ofText_of_reading⟩
    rcases hends with ⟨tokens', hreading⟩ | ⟨read, tokens', rest, hsource, hreading, hstuck⟩
    · cases h.symm.trans (ofText_of_reading hreading)
      exact hreading
    · cases h.symm.trans (ofText_of_stuck hsource hreading hstuck)
  refine ⟨hok, fun tokens h t ht kind hmem => ?_, fun fault => ⟨fun h => ?_, ?_⟩,
    fun line column => rfl⟩
  · exact (((hok tokens).mp h).lexes t ht).keyword_iff hmem
  · rcases hends with ⟨tokens', hreading⟩ | ⟨read, tokens', rest, hsource, hreading, hstuck⟩
    · cases h.symm.trans (ofText_of_reading hreading)
    · cases h.symm.trans (ofText_of_stuck hsource hreading hstuck)
      exact ⟨read, tokens', rest, hsource, hreading, hstuck, rfl⟩
  · rintro ⟨read, tokens, rest, hsource, hreading, hstuck, rfl⟩
    exact ofText_of_stuck hsource hreading hstuck

/-- The tokens of a text in which shorter lexemes compete with longer ones. -/
def rivals : List Token :=
  [⟨.letWord, "let", 1, 1⟩, ⟨.word, "modules", 1, 5⟩, ⟨.assign, ":=", 1, 12⟩,
   ⟨.number, "1.5", 1, 14⟩, ⟨.dot, ".", 1, 17⟩, ⟨.lessOrEqual, "<=", 2, 1⟩,
   ⟨.text, "if", 2, 3⟩]

/-- The text is read to its end; another one is read up to a lone ampersand in its
second line. -/
theorem rivals_lossless :
    Reading "let modules:=1.5.//a\n<=\"if\"".toList rivals [] ∧
      (∀ t ∈ rivals, ∀ kind ∈ Kind.keywords,
        (t.kind = kind ↔ t.written = kind.spelling.toList)) ∧
      ∃ read tokens rest, "a//\n &".toList = read ++ rest ∧ Reading read tokens rest ∧
        Stuck rest ∧ Place.behind read = ⟨2, 2⟩ := by
  have hread : (ofText "let modules:=1.5.//a\n<=\"if\"").toOption = some rivals := by
    decide +kernel
  have hrefused : (match ofText "a//\n &" with
      | .error (.parse (.unexpectedCharacter line column)) => decide (line = 2 ∧ column = 2)
      | _ => false) = true := by
    decide +kernel
  have hok : ofText "let modules:=1.5.//a\n<=\"if\"" = .ok rivals := by
    cases hok : ofText "let modules:=1.5.//a\n<=\"if\"" with
    | error fault => rw [hok] at hread; cases hread
    | ok tokens => rw [hok] at hread; cases hread; rfl
  refine ⟨((ofText_lossless _).1 rivals).mp hok, (ofText_lossless _).2.1 rivals hok, ?_⟩
  split at hrefused
  · next line column herror =>
    obtain ⟨read, tokens, rest, hsource, hreading, hstuck, hfault⟩ :=
      ((ofText_lossless _).2.2.1 _).mp herror
    cases hfault
    obtain ⟨hline, hcolumn⟩ := of_decide_eq_true hrefused
    refine ⟨read, tokens, rest, hsource, hreading, hstuck, ?_⟩
    show Place.mk (Place.behind read).line (Place.behind read).column = _
    rw [hline, hcolumn]
  · cases hrefused

end Pseudocode.Token
