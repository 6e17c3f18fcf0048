import Pseudocode.Proofs.Literal
import Pseudocode.Token.Lexer

/-!
# The numbers of a program text

A number token's text is a row of digits, or two rows around a point
(`ofText_numbers`): it can start only at a digit and is the longest that goes on from
there.  The reader of numbers understands much more than that, but from a program
text it gets nothing else.

That is a statement about all tokens of a text, and so it is an invariant of the scanner:
the tokens found so far are of that kind, and one step adds a token that is one lexeme
(`scan_outcome`).  A lexeme is a number only where the first character is a digit
(`lexeme_number`), and then what was taken are the digits up to its end, the point, and the
digits behind that (`take_number`).

So what can go wrong with the numeral of a token is that
it has too many digits (`readNumber_long`), and a text is refused by the lexer only
for a character that starts no token (`ofText_error`).
-/

namespace Pseudocode

open Text Numeral Grammar

/-- The texts of number tokens: digits of any script, or digits around a point. -/
def IsDecimal (text : String) : Prop :=
  IsDigits text.toList ∨ ∃ whole fraction, IsDigits whole ∧ IsDigits fraction ∧
    text.toList = whole ++ '.' :: fraction

/-- With at most so many digits it is a numeral that can be read. -/
theorem IsDecimal.numeral {text : String} (h : IsDecimal text)
    (hlength : IsDigits text.toList → text.toList.length ≤ 4300) :
    IsNumeral text := by
  rcases h with hdigits | hfraction
  · exact .inl ⟨hdigits, hlength hdigits⟩
  · exact .inr hfraction

namespace Token

/-! ## What is taken -/

/-- As many characters as are in a class are those in the class. -/
theorem take_span (p : Char → Bool) (cs : List Char) :
    cs.take (span p cs) = cs.takeWhile p :=
  (List.prefix_iff_eq_take.mp (List.takeWhile_prefix p)).symm

/-- What is taken as digits are digits. -/
theorem takeWhile_digits (cs : List Char) :
    ∀ c ∈ cs.takeWhile isDigit, isDigit c = true :=
  List.all_eq_true.mp List.all_takeWhile

/-- A fraction is a point and digits. -/
theorem take_fraction (cs : List Char) :
    cs.take (fractionLength cs) = [] ∨
      ∃ fraction, IsDigits fraction ∧ cs.take (fractionLength cs) = '.' :: fraction := by
  unfold fractionLength
  split
  · rename_i c rest
    by_cases hdigit : isDigit c = true
    · rw [if_pos hdigit, Nat.add_comm]
      refine .inr ⟨c :: rest.takeWhile isDigit, ⟨List.cons_ne_nil _ _, ?_⟩, ?_⟩
      · intro d hd
        rcases List.mem_cons.mp hd with rfl | hd
        · exact hdigit
        · exact takeWhile_digits rest d hd
      · rw [List.take_succ_cons, List.take_succ_cons, take_span]
    · rw [if_neg hdigit]
      exact .inl rfl
  · exact .inl rfl

/-- A number is digits, or digits around a point. -/
theorem take_number {c : Char} (hc : isDigit c = true) (rest : List Char) :
    IsDecimal (String.ofList ((c :: rest).take
      (1 + span isDigit rest + fractionLength (rest.drop (span isDigit rest))))) := by
  have hwhole : IsDigits (c :: rest.takeWhile isDigit) := by
    refine ⟨List.cons_ne_nil _ _, fun d hd => ?_⟩
    rcases List.mem_cons.mp hd with rfl | hd
    · exact hc
    · exact takeWhile_digits rest d hd
  have htaken : (c :: rest).take
      (1 + span isDigit rest + fractionLength (rest.drop (span isDigit rest))) =
      (c :: rest.takeWhile isDigit) ++
        (rest.drop (span isDigit rest)).take
          (fractionLength (rest.drop (span isDigit rest))) := by
    rw [Nat.add_assoc, Nat.add_comm 1, List.take_succ_cons, List.take_add, take_span,
      List.cons_append]
  unfold IsDecimal
  rw [htaken, String.toList_ofList]
  rcases take_fraction (rest.drop (span isDigit rest)) with hnone | ⟨fraction, hdigits, hsome⟩
  · rw [hnone, List.append_nil]
    exact .inl hwhole
  · rw [hsome]
    exact .inr ⟨_, fraction, hwhole, hdigits, rfl⟩

/-! ## What becomes a token -/

/-- A word is a keyword, or it is none. -/
theorem ofWord_mem (s : String) : Kind.ofWord s ∈ Kind.word :: Kind.keywords := by
  unfold Kind.ofWord
  cases hfound : Kind.keywords.find? fun kind => kind.spelling = s with
  | none => exact List.mem_cons_self ..
  | some kind => exact List.mem_cons_of_mem _ (List.mem_of_find?_eq_some hfound)

/-- A lexeme that makes a number token starts with a digit. -/
theorem lexeme_number {c : Char} {rest : List Char} {lexeme : Lexeme}
    (h : lexeme? c rest = some lexeme) (hkind : lexeme.kind = some .number) :
    isDigit c = true ∧ lexeme.length =
      1 + span isDigit rest + fractionLength (rest.drop (span isDigit rest)) := by
  have hwords : Kind.number ∉ Kind.word :: Kind.keywords := by decide
  have hmarks : Kind.number ∉ Kind.marks := by decide
  unfold lexeme? at h
  split at h
  · cases h
    cases hkind
  split at h
  · cases h
    cases hkind
  split at h
  · cases h
    have hmem := ofWord_mem (String.ofList ((c :: rest).take (1 + span isWordChar rest)))
    rw [Option.some.inj hkind] at hmem
    exact absurd hmem hwords
  split at h
  · next hdigit =>
    cases h
    exact ⟨hdigit, rfl⟩
  split at h
  · unfold quotedLexeme? at h
    dsimp only at h
    split at h
    · cases h
      cases hkind
    · cases h
  · unfold markLexeme? at h
    split at h
    · cases h
    · next kind hfound =>
      split at h
      · cases h
        have hmem := List.mem_of_find?_eq_some hfound
        rw [Option.some.inj hkind] at hmem
        exact absurd hmem hmarks
      · cases h

/-- A lexeme's token, if it is a number, has the text of one. -/
theorem lexeme_decimal {c : Char} {rest : List Char} {lexeme : Lexeme}
    (h : lexeme? c rest = some lexeme) (hkind : lexeme.kind = some .number) :
    IsDecimal (lexemeText .number ((c :: rest).take lexeme.length)) := by
  obtain ⟨hdigit, hlength⟩ := lexeme_number h hkind
  rw [hlength]
  exact take_number hdigit rest

/-- Scanning finds only number tokens with the text of a number, and fails only at
a character that starts no lexeme. -/
theorem scan_outcome (place : Place) (found : List Token) (cs : List Char)
    (hfound : ∀ t ∈ found, t.kind = .number → IsDecimal t.text) :
    match scan place found cs with
    | .ok tokens => ∀ t ∈ tokens, t.kind = .number → IsDecimal t.text
    | .error fault => ∃ line column, fault = .parse (.unexpectedCharacter line column) := by
  fun_induction scan place found cs with
  | case1 place found => exact fun t ht => hfound t (List.mem_reverse.mp ht)
  | case2 place found c rest hnone => exact ⟨_, _, rfl⟩
  | case3 place found c rest lexeme hlexeme read behind more ih =>
    refine ih fun t ht hkind => ?_
    cases hmakes : lexeme.kind with
    | none =>
      simp only [more, hmakes] at ht
      exact hfound t ht hkind
    | some kind =>
      simp only [more, hmakes, List.mem_cons] at ht
      rcases ht with rfl | ht
      · cases hkind
        exact lexeme_decimal hlexeme hmakes
      · exact hfound t ht hkind

/-- The number tokens of a program text are digits, perhaps around a point. -/
theorem ofText_numbers {source : String} {tokens : List Token}
    (h : ofText source = .ok tokens) :
    ∀ t ∈ tokens, t.kind = .number → IsDecimal t.text := by
  have houtcome := scan_outcome ⟨1, 1⟩ [] source.toList (by simp)
  unfold ofText at h
  rwa [h] at houtcome

/-- A program text is refused for a character that starts no token. -/
theorem ofText_error {source : String} {fault : Fault} (h : ofText source = .error fault) :
    ∃ line column, fault = .parse (.unexpectedCharacter line column) := by
  have houtcome := scan_outcome ⟨1, 1⟩ [] source.toList (by simp)
  unfold ofText at h
  rwa [h] at houtcome

end Token

/-! ## What is wrong with a numeral -/

/-- What can be wrong with the numeral of a token is that it has too many digits. -/
theorem readNumber_long {text : String} {negative : Bool} {fault : NumeralFault}
    (h : IsDecimal text) (hread : readNumber text negative = .error (.numeral fault)) :
    IsDigits text.toList ∧ 4300 < text.toList.length ∧
      readInteger text = .error fault := by
  unfold readNumber at hread
  rcases h with hdigits | ⟨whole, fraction, hwhole, hfraction, htext⟩
  · rw [hasPoint_digits hdigits, if_neg (by decide)] at hread
    by_cases hlength : text.toList.length ≤ 4300
    · rw [readInteger_digits hdigits hlength] at hread
      dsimp only at hread
      split at hread
      · split at hread <;> cases hread
      · split at hread <;> cases hread
    · have hlong := Nat.lt_of_not_le hlength
      have hrow := readInteger_row hdigits
      rw [if_pos hlong] at hrow
      rw [hrow] at hread
      cases hread
      exact ⟨hdigits, hlong, hrow⟩
  · rw [hasPoint_fraction htext, if_pos rfl, readReal_digits hwhole hfraction htext] at hread
    cases hread

end Pseudocode
