import Pseudocode.Proofs.Grammar

/-!
# What a number's text denotes

The text of a number token is a row of digits, perhaps with a point and a
further row behind it (`IsNumeral`).  Without a point it denotes the integer of its
digits in base ten, of whatever script they are, which has to fit 32 bits with its sign;
with a point it denotes the real next to the decimal fraction (`Denotes`).

The reader of numbers understands more than that: blanks around the number, a sign,
low lines between digits, an exponent.  None of these occurs in such a text, and the
first half of this module says so, character by character.  Digits of other scripts are
traded for their ASCII twins (`plainChar`), which have the same values and are no less
digits, so that what is known of decimal numerals can be used for all of them.

> `readInteger_signed`: digits, perhaps behind a sign, are read as the value they have in
> base ten, unless there are more of them than are read.
>
> `readReal_digits`: digits around a point are read as the nearest real.

Together these are `reads_iff`: the reader makes of a numeral exactly what it denotes.
-/

namespace Pseudocode.Grammar

open Text Numeral

/-- The number that digits of any script denote in base ten. -/
def decimalValue (cs : List Char) : Nat :=
  cs.foldl (fun n c => 10 * n + (digitValue? c).getD 0) 0

/-- A row of digits of any script. -/
def IsDigits (cs : List Char) : Prop :=
  cs ≠ [] ∧ ∀ c ∈ cs, isDigit c = true

/-- The texts of number tokens: digits, at most 4300, or digits around a
point. -/
def IsNumeral (text : String) : Prop :=
  (IsDigits text.toList ∧ text.toList.length ≤ 4300) ∨
    ∃ whole fraction, IsDigits whole ∧ IsDigits fraction ∧
      text.toList = whole ++ '.' :: fraction

/-- What a number's text denotes, with a minus before it or without. -/
inductive Denotes (text : String) (negative : Bool) : Value → Prop where
  | integer (digits : IsDigits text.toList)
      (least : -2147483648 ≤ signed negative (decimalValue text.toList))
      (greatest : signed negative (decimalValue text.toList) ≤ 2147483647) :
      Denotes text negative
        (.integer (signed negative (decimalValue text.toList)))
  | real {whole fraction} (before : IsDigits whole) (behind : IsDigits fraction)
      (point : text.toList = whole ++ '.' :: fraction) :
      Denotes text negative
        (.real (scaleReal (decimalValue (whole ++ fraction))
          (-(fraction.length : Int))))

/-! ## Digits -/

/-- A digit lies in the run of its zero. -/
theorem digitFrom_run {n d : Nat} :
    ∀ {zeros : List Nat}, digitFrom zeros n = some d →
      ∃ base ∈ zeros, n = base + d ∧ d < 10
  | [], h => nomatch h
  | first :: rest, h => by
    unfold digitFrom at h
    split at h
    · cases h
    · split at h
      · cases h
        exact ⟨first, List.mem_cons_self .., by omega, by omega⟩
      · obtain ⟨base, hmem, hrun⟩ := digitFrom_run h
        exact ⟨base, List.mem_cons_of_mem _ hmem, hrun⟩

/-- No digit of any script is a blank, a low line or a point. -/
theorem digit_runs_plain : ∀ base ∈ digitZeros, ∀ d < 10,
    inRanges blankRanges (base + d) = false ∧ base + d ≠ '_'.toNat ∧
      base + d ≠ '.'.toNat := by
  decide +kernel

/-- A digit is none of the characters that a reader of numbers skips or splits at. -/
theorem digit_plain {c : Char} (h : isDigit c = true) :
    isNumeralBlank c = false ∧ c ≠ '_' ∧ c ≠ '.' := by
  obtain ⟨d, hd⟩ := Option.isSome_iff_exists.mp h
  obtain ⟨base, hmem, hc, hlt⟩ := digitFrom_run hd
  obtain ⟨hblank, hlow, hpoint⟩ := digit_runs_plain base hmem d hlt
  rw [← hc] at hblank hlow hpoint
  refine ⟨?_, fun he => hlow (he ▸ rfl), fun he => hpoint (he ▸ rfl)⟩
  unfold isNumeralBlank isBlank
  rw [hblank, Bool.false_and]

/-- The ASCII twin of a character: of a digit the digit of the same value. -/
def plainChar (c : Char) : Char :=
  match digitValue? c with
  | some d => Nat.digitChar d
  | none => c

/-- The ten ASCII digits, one by one: digits, at their distance from zero, without a case. -/
theorem digitChar_plain : ∀ d < 10, (Nat.digitChar d).isDigit = true ∧
    (Nat.digitChar d).toNat - '0'.toNat = d ∧
    (Nat.digitChar d).toLower = Nat.digitChar d := by
  decide

/-- The twin of a digit is an ASCII digit of the same value. -/
theorem plainChar_digit {c : Char} (h : isDigit c = true) :
    (plainChar c).isDigit = true ∧
      (plainChar c).toNat - '0'.toNat = (digitValue? c).getD 0 ∧
      (plainChar c).toLower = plainChar c := by
  obtain ⟨d, hd⟩ := Option.isSome_iff_exists.mp h
  have hplain := digitChar_plain d (digitFrom_lt hd)
  simpa only [plainChar, hd, Option.getD_some] using hplain

/-- A point has no twin but itself. -/
theorem plainChar_point : plainChar '.' = '.' := by decide

/-- A digit and something else are two characters. -/
theorem isDigit_ne {c d : Char} (h : c.isDigit = true)
    (hd : d.isDigit = false) : c ≠ d := by
  rintro rfl
  rw [h] at hd
  cases hd

/-! ## Rows of digits -/

/-- The ASCII twins of a row of digits are digits. -/
theorem all_plain {cs : List Char} (h : ∀ c ∈ cs, isDigit c = true) :
    ∀ c ∈ cs.map plainChar, c.isDigit = true := by
  simp only [List.mem_map]
  rintro _ ⟨c, hc, rfl⟩
  exact (plainChar_digit (h c hc)).1

/-- The ASCII twins of digits are a numeral of the same value. -/
theorem digitsValue_plain {cs : List Char} (h : ∀ c ∈ cs, isDigit c = true) :
    digitsValue (cs.map plainChar) = decimalValue cs := by
  -- the same from any number on, since a fold carries the digits read so far
  have from_any : ∀ n : Nat,
      cs.foldl (fun n c => 10 * n + ((plainChar c).toNat - '0'.toNat)) n =
        cs.foldl (fun n c => 10 * n + (digitValue? c).getD 0) n := by
    induction cs with
    | nil => exact fun _ => rfl
    | cons c cs ih =>
      intro n
      obtain ⟨hc, hcs⟩ := List.forall_mem_cons.mp h
      rw [List.foldl_cons, List.foldl_cons, (plainChar_digit hc).2.1, ih hcs]
  unfold digitsValue decimalValue
  rw [List.foldl_map, from_any]

/-- Nothing is stripped off a text without blanks. -/
theorem stripBy_eq_self {p : Char → Bool} {cs : List Char}
    (h : ∀ c ∈ cs, p c = false) : stripBy p cs = cs := by
  have drop_self : ∀ {cs : List Char}, (∀ c ∈ cs, p c = false) →
      cs.dropWhile p = cs := by
    intro cs h
    cases cs with
    | nil => rfl
    | cons c cs => rw [List.dropWhile_cons_of_neg (by simp [h c])]
  unfold stripBy
  rw [drop_self h, drop_self (by simpa using h), List.reverse_reverse]

/-- Without low lines there is nothing to join. -/
theorem joinDigits_eq_self {cs : List Char} :
    ∀ {last}, '_' ∉ cs → joinDigits last cs = some cs := by
  induction cs with
  | nil => exact fun _ => rfl
  | cons c cs ih =>
    intro last h
    have hc : '_' ≠ c := fun he => h (he ▸ List.mem_cons_self ..)
    have hcs : '_' ∉ cs := fun hmem => h (List.mem_cons_of_mem _ hmem)
    unfold joinDigits
    split
    · contradiction
    · rename_i heq
      cases heq
      exact absurd rfl hc
    · -- a character that is no low line is kept
      rename_i heq
      cases heq
      rw [if_neg (Ne.symm hc), ih hcs, Option.map_some]

/-- A row of digits has no sign. -/
theorem splitSign_digit {c : Char} {cs : List Char} (h : c.isDigit = true) :
    splitSign (c :: cs) = (false, c :: cs) := by
  unfold splitSign
  split
  · rename_i heq
    cases heq
    exact absurd h (by decide)
  · rename_i heq
    cases heq
    exact absurd h (by decide)
  · rfl

/-! ## Numerals -/

/-- The characters of a numeral are digits and perhaps a point. -/
theorem IsNumeral.chars {text : String} (h : IsNumeral text) :
    ∀ c ∈ text.toList, isDigit c = true ∨ c = '.' := by
  intro c hc
  obtain ⟨⟨-, hdigits⟩, -⟩ | ⟨whole, fraction, hwhole, hfraction, htext⟩ := h
  · exact .inl (hdigits c hc)
  · rw [htext, List.mem_append, List.mem_cons] at hc
    obtain hc | rfl | hc := hc
    · exact .inl (hwhole.2 c hc)
    · exact .inr rfl
    · exact .inl (hfraction.2 c hc)

/-- Digits, points and signs are read character by character. -/
theorem joined_numeral {text : String}
    (h : ∀ c ∈ text.toList, isDigit c = true ∨ c ∈ ['.', '-', '+']) :
    joinDigits none (plainNumeral text) = some (text.toList.map plainChar) := by
  have hmarks : ∀ c ∈ ['.', '-', '+'], isNumeralBlank c = false ∧ plainChar c ≠ '_' := by
    intro c hc
    simp only [List.mem_cons, List.not_mem_nil, or_false] at hc
    rcases hc with rfl | rfl | rfl <;> decide
  have hblank : ∀ c ∈ text.toList, isNumeralBlank c = false := by
    intro c hc
    obtain hdigit | hmark := h c hc
    · exact (digit_plain hdigit).1
    · exact (hmarks c hmark).1
  -- the twins of the characters hold no low line either
  have hlow : '_' ∉ text.toList.map plainChar := by
    rw [List.mem_map]
    rintro ⟨c, hc, hplain⟩
    obtain hdigit | hmark := h c hc
    · exact isDigit_ne (plainChar_digit hdigit).1 (by decide) hplain
    · exact (hmarks c hmark).2 hplain
  unfold plainNumeral
  rw [stripBy_eq_self hblank]
  exact joinDigits_eq_self hlow

/-- A row of digits has no point. -/
theorem hasPoint_digits {text : String} (h : IsDigits text.toList) :
    hasPoint text = false := by
  unfold hasPoint
  rw [Bool.eq_false_iff, ne_eq, List.contains_iff_mem]
  intro hmem
  exact (digit_plain (h.2 _ hmem)).2.2 rfl

/-- What fits into 32 bits lies between the least and the greatest integer. -/
theorem isInt32_iff {n : Int} :
    isInt32 n = true ↔ -2147483648 ≤ n ∧ n ≤ 2147483647 := by
  unfold isInt32
  rw [Bool.and_eq_true, decide_eq_true_iff, decide_eq_true_iff]
  rfl

/-- What may stand before the digits of an integer. -/
def signs : List (List Char) := [[], ['-'], ['+']]

/-- A sign is split off the digits behind it. -/
theorem splitSign_append {sign digits : List Char} (hsign : sign ∈ signs)
    (hne : digits ≠ []) (hdigits : ∀ c ∈ digits, c.isDigit = true) :
    splitSign (sign ++ digits) = (decide (sign = ['-']), digits) := by
  cases digits with
  | nil => exact absurd rfl hne
  | cons c cs =>
    simp only [signs, List.mem_cons, List.not_mem_nil, or_false] at hsign
    rcases hsign with rfl | rfl | rfl
    · exact splitSign_digit (hdigits c (List.mem_cons_self ..))
    · rfl
    · rfl

/-- A row of digits, perhaps behind a sign, is read as its decimal value, unless it is
too long. -/
theorem readInteger_signed {text : String} {sign digits : List Char} (hsign : sign ∈ signs)
    (h : IsDigits digits) (htext : text.toList = sign ++ digits) :
    readInteger text =
      if 4300 < digits.length then .error (.tooLong digits.length)
      else .ok (signed (decide (sign = ['-'])) (decimalValue digits)) := by
  obtain ⟨hne, hdigits⟩ := h
  have hmarks : ∀ sign ∈ signs,
      sign.map plainChar = sign ∧ ∀ c ∈ sign, c ∈ ['.', '-', '+'] := by
    intro sign hsign
    simp only [signs, List.mem_cons, List.not_mem_nil, or_false] at hsign
    rcases hsign with rfl | rfl | rfl
    · exact ⟨rfl, by simp⟩
    · exact ⟨by decide, by simp⟩
    · exact ⟨by decide, by simp⟩
  have hchars : ∀ c ∈ text.toList, isDigit c = true ∨ c ∈ ['.', '-', '+'] := by
    intro c hc
    rw [htext, List.mem_append] at hc
    exact (hc.imp ((hmarks sign hsign).2 c) (hdigits c)).symm
  have hjoined := joined_numeral hchars
  have hall := all_plain hdigits
  have hevery : (digits.map plainChar).all Char.isDigit = true := List.all_eq_true.mpr hall
  have hsome : (digits.map plainChar).isEmpty = false :=
    List.isEmpty_eq_false_iff.mpr (mt List.map_eq_nil_iff.mp hne)
  rw [htext, List.map_append, (hmarks sign hsign).1] at hjoined
  unfold readInteger
  rw [hjoined]
  simp only [splitSign_append hsign (mt List.map_eq_nil_iff.mp hne) hall, hevery, hsome,
    Bool.not_true, Bool.or_self, Bool.false_eq_true, if_false, List.length_map,
    digitsValue_plain hdigits, digitLimit]

/-- A row of digits is read as its decimal value, unless it is too long. -/
theorem readInteger_row {text : String} (h : IsDigits text.toList) :
    readInteger text =
      if 4300 < text.toList.length then .error (.tooLong text.toList.length)
      else .ok (signed false (decimalValue text.toList)) :=
  readInteger_signed (List.mem_cons_self ..) h rfl

/-- A row of digits that is not too long is read as its decimal value. -/
theorem readInteger_digits {text : String} (h : IsDigits text.toList)
    (hlength : text.toList.length ≤ 4300) :
    readInteger text = .ok (signed false (decimalValue text.toList)) := by
  rw [readInteger_row h, if_neg (Nat.not_lt.mpr hlength)]

/-- A row of digits ends where something else begins. -/
theorem span_digits {cs : List Char} (h : ∀ c ∈ cs, c.isDigit = true)
    (rest : List Char) (hrest : ∀ c ∈ rest.head?, c.isDigit = false) :
    (cs ++ rest).takeWhile Char.isDigit = cs ∧
      (cs ++ rest).dropWhile Char.isDigit = rest := by
  rw [List.takeWhile_append_of_pos h, List.dropWhile_append_of_pos h]
  cases rest with
  | nil => simp
  | cons c rest => simp [hrest c rfl]

/-- ASCII digits around a point are the magnitude of their decimal fraction. -/
theorem readMagnitude_digits {whole fraction : List Char} (hne : whole ≠ [])
    (hwhole : ∀ c ∈ whole, c.isDigit = true)
    (hfraction : ∀ c ∈ fraction, c.isDigit = true) :
    readMagnitude (whole ++ '.' :: fraction) =
      some (scaleReal (digitsValue (whole ++ fraction))
        (-(fraction.length : Int))) := by
  obtain ⟨hbefore, hbehind⟩ := span_digits hwhole ('.' :: fraction) (by simp)
  have hspan := span_digits hfraction [] (by simp)
  rw [List.append_nil] at hspan
  -- it is none of the words for what is no number: those start with a letter
  have hfirst : ∀ d ds, d.isDigit = false → whole ++ '.' :: fraction ≠ d :: ds := by
    intro d ds hd heq
    cases whole with
    | nil => exact hne rfl
    | cons c cs => exact isDigit_ne (hwhole c (by simp)) hd (List.cons.inj heq).1
  unfold readMagnitude
  rw [if_neg (not_or.mpr ⟨hfirst _ _ (by decide), hfirst _ _ (by decide)⟩),
    if_neg (hfirst _ _ (by decide))]
  simp only [hbefore, hbehind, hspan.1, hspan.2, List.isEmpty_eq_false_iff.mpr hne,
    Bool.false_and, Bool.false_eq_true, if_false, readExponent, Option.map_some,
    Int.zero_sub]

/-- Digits around a point are read as their decimal fraction. -/
theorem readReal_digits {text : String} {whole fraction : List Char}
    (hwhole : IsDigits whole) (hfraction : IsDigits fraction)
    (htext : text.toList = whole ++ '.' :: fraction) :
    readReal text =
      some (scaleReal (decimalValue (whole ++ fraction))
        (-(fraction.length : Int))) := by
  have hnumeral : IsNumeral text := .inr ⟨whole, fraction, hwhole, hfraction, htext⟩
  have hchars : ∀ c ∈ text.toList, isDigit c = true ∨ c ∈ ['.', '-', '+'] := fun c hc =>
    (hnumeral.chars c hc).imp_right fun hpoint => by simp [hpoint]
  have hjoined := joined_numeral hchars
  have hlower : ∀ {cs : List Char}, (∀ c ∈ cs, isDigit c = true) →
      (cs.map plainChar).map Char.toLower = cs.map plainChar := by
    intro cs hcs
    rw [List.map_map]
    exact List.map_congr_left fun c hc => (plainChar_digit (hcs c hc)).2.2
  have hvalue : digitsValue (whole.map plainChar ++ fraction.map plainChar) =
      decimalValue (whole ++ fraction) := by
    rw [← List.map_append]
    exact digitsValue_plain fun c hc =>
      (List.mem_append.mp hc).elim (hwhole.2 c) (hfraction.2 c)
  have hsign : splitSign (whole.map plainChar ++ '.' :: fraction.map plainChar) =
      (false, whole.map plainChar ++ '.' :: fraction.map plainChar) := by
    cases whole with
    | nil => exact absurd rfl hwhole.1
    | cons c cs =>
      exact splitSign_digit (plainChar_digit (hwhole.2 c (by simp))).1
  have hne : whole.map plainChar ≠ [] := mt List.map_eq_nil_iff.mp hwhole.1
  unfold readReal
  rw [hjoined, htext, List.map_append, List.map_cons, plainChar_point]
  simp only [hsign, List.map_append, List.map_cons, hlower hwhole.2,
    hlower hfraction.2]
  rw [show Char.toLower '.' = '.' from by decide,
    readMagnitude_digits hne (all_plain hwhole.2) (all_plain hfraction.2), hvalue,
    List.length_map]
  rfl

/-- A row of digits around a point has a point. -/
theorem hasPoint_fraction {text : String} {whole fraction : List Char}
    (htext : text.toList = whole ++ '.' :: fraction) : hasPoint text = true := by
  unfold hasPoint
  simp [htext]

/-- A numeral is read as what it denotes. -/
theorem reads_iff {text : String} (h : IsNumeral text) {negative : Bool}
    {v : Value} : Reads text negative v ↔ Denotes text negative v := by
  unfold Reads readNumber
  obtain ⟨hdigits, hlength⟩ | ⟨whole, fraction, hwhole, hfraction, htext⟩ := h
  · have hsigned : (if negative = true then -signed false (decimalValue text.toList)
        else signed false (decimalValue text.toList)) =
          signed negative (decimalValue text.toList) := by
      cases negative <;> rfl
    simp only [hasPoint_digits hdigits, Bool.false_eq_true, if_false,
      readInteger_digits hdigits hlength, hsigned, isInt32_iff]
    constructor
    · intro hread
      split at hread
      · rename_i hrange
        cases hread
        exact .integer hdigits hrange.1 hrange.2
      · cases hread
    · intro hdenotes
      cases hdenotes with
      | integer _ hleast hgreatest => rw [if_pos ⟨hleast, hgreatest⟩]
      | real _ _ htext =>
        -- a row of digits is no fraction
        have hpoint := hasPoint_fraction htext
        rw [hasPoint_digits hdigits] at hpoint
        cases hpoint
  · have hpoint := hasPoint_fraction htext
    simp only [hpoint, if_true, readReal_digits hwhole hfraction htext]
    constructor
    · intro hread
      cases hread
      exact .real hwhole hfraction htext
    · intro hdenotes
      cases hdenotes with
      | integer hdigits =>
        rw [hasPoint_digits hdigits] at hpoint
        cases hpoint
      | real hwhole' hfraction' htext' =>
        -- two ways to split one text at a point give one value
        have hsame := readReal_digits hwhole' hfraction' htext'
        rw [readReal_digits hwhole hfraction htext, Option.some.injEq] at hsame
        rw [hsame]

end Pseudocode.Grammar
