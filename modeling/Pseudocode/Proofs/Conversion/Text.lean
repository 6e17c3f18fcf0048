import Mathlib.Data.List.TakeWhile
import Pseudocode.Proofs.Conversion
import Pseudocode.Proofs.Faults

/-!
# Values through text

An integer or a truth value that is written as text is read back as what it was, also
with blanks around it and slot by slot in an array.  The texts of integers are exactly
these: blanks, perhaps a sign, ASCII digits, blanks (`SpellsInteger`).  The writer knows
one text for an integer and the reader accepts many, so that what is shared by the two
proofs is the reader's description: the decimal text is one of the texts it accepts
(`spells_decimal`), and whatever it accepts is read by `toInteger_iff`.
-/

namespace Pseudocode

open Text Numeral Grammar

/-! ## Blanks at both ends

Blanks are taken from both ends and nowhere else. -/

namespace Text

/-- What is stripped off are blanks. -/
theorem stripBy_split (p : Char → Bool) (cs : List Char) :
    ∃ before behind, cs = before ++ stripBy p cs ++ behind ∧
      (∀ c ∈ before, p c = true) ∧ ∀ c ∈ behind, p c = true := by
  let rest := cs.dropWhile p
  have hrest : rest = stripBy p cs ++ (rest.reverse.takeWhile p).reverse := by
    have hreverse := congrArg List.reverse
      (List.takeWhile_append_dropWhile (p := p) (l := rest.reverse))
    rw [List.reverse_append, List.reverse_reverse] at hreverse
    exact hreverse.symm
  refine ⟨cs.takeWhile p, (rest.reverse.takeWhile p).reverse, ?_, ?_, ?_⟩
  · rw [List.append_assoc, ← hrest]
    exact List.takeWhile_append_dropWhile.symm
  · exact fun c hc => List.mem_takeWhile_imp hc
  · exact fun c hc => List.mem_takeWhile_imp (List.mem_reverse.mp hc)

/-- What has no blanks in it is all that is left when it is stripped. -/
theorem stripBy_padded {p : Char → Bool} {before cs behind : List Char}
    (hbefore : ∀ c ∈ before, p c = true) (hbehind : ∀ c ∈ behind, p c = true)
    (hcs : ∀ c ∈ cs, p c = false) : stripBy p (before ++ cs ++ behind) = cs := by
  unfold stripBy
  rw [List.append_assoc, List.dropWhile_append_of_pos hbefore]
  cases cs with
  | nil =>
    rw [List.nil_append, List.dropWhile_eq_nil_iff.mpr hbehind]
    rfl
  | cons c cs =>
    rw [List.cons_append, List.dropWhile_cons_of_neg (by simp [hcs c]), ← List.cons_append,
      List.reverse_append, List.dropWhile_append_of_pos (by simpa using hbehind)]
    -- nothing of the text is a blank, so that the end of it stays too
    have hself := stripBy_eq_self hcs
    unfold stripBy at hself
    rwa [List.dropWhile_cons_of_neg (by simp [hcs c])] at hself

/-- An ASCII digit is no blank. -/
theorem isBlank_digit {c : Char} (h : c.isDigit = true) : isBlank c = false := by
  obtain ⟨hzero, -⟩ : '0'.toNat ≤ c.toNat ∧ c.toNat ≤ '9'.toNat := by
    simpa [Char.isDigit, UInt32.le_iff_toNat_le] using h
  have hcontrol : ¬ c.toNat ≤ 0x1f := fun hle => absurd (Nat.le_trans hzero hle) (by decide)
  simpa [isNumeralBlank, hcontrol] using (digit_plain (isDigit_of_ascii h)).1

/-- That no character is a blank can be computed. -/
theorem isBlank_of_all {cs : List Char} (h : (cs.all fun c => !isBlank c) = true) :
    ∀ c ∈ cs, isBlank c = false := by
  intro c hc
  have hplain := List.all_eq_true.mp h c hc
  rwa [Bool.not_eq_true'] at hplain

/-- Nor is a sign. -/
theorem isBlank_sign {sign : List Char} (h : sign ∈ signs) :
    ∀ c ∈ sign, isBlank c = false := by
  have hsigns : (signs.all fun sign => sign.all fun c => !isBlank c) = true := by decide
  exact isBlank_of_all (List.all_eq_true.mp hsigns sign h)

end Text

/-! ## Texts of integers

An integer is written in base ten, with a minus if it is negative; and digits of base ten are
read as the number that they spell. -/

namespace Numeral

/-- Whether a text spells an integer of 32 bits: blanks, perhaps a sign, at most 4300
ASCII digits, and blanks again. -/
inductive SpellsInteger (text : String) (n : Int) : Prop where
  | intro {before sign digits behind : List Char}
      (split : text.toList = before ++ (sign ++ digits) ++ behind)
      (blankBefore : ∀ c ∈ before, isBlank c = true)
      (blankBehind : ∀ c ∈ behind, isBlank c = true)
      (mark : sign ∈ signs) (row : digits ≠ [])
      (ascii : ∀ c ∈ digits, c.isDigit = true) (short : digits.length ≤ 4300)
      (value : n = signed (decide (sign = ['-'])) (Nat.ofDigitChars 10 digits 0))
      (least : -2147483648 ≤ n) (greatest : n ≤ 2147483647)

/-- ASCII digits denote the same number as digits of any script. -/
theorem decimalValue_ascii {cs : List Char} (h : ∀ c ∈ cs, c.isDigit = true) :
    decimalValue cs = Nat.ofDigitChars 10 cs 0 :=
  List.foldl_ext _ _ _ fun n c hc => by rw [digitValue_ascii (h c hc), Option.getD_some]

/-- The decimal text of an integer: perhaps a minus, and the digits. -/
theorem toList_decimal (n : Int) : ∃ sign ∈ signs,
    (toString n).toList = sign ++ Nat.toDigits 10 n.natAbs ∧
      n = signed (decide (sign = ['-'])) n.natAbs := by
  cases n with
  | ofNat m => exact ⟨[], by simp [signs], by simp [Int.repr], by simp [signed]⟩
  | negSucc m =>
    refine ⟨['-'], by simp [signs], ?_, ?_⟩
    · simp [Int.repr]
    · rfl

/-- The decimal text of an integer spells it, with blanks around it too. -/
theorem spells_decimal {n : Int} (hleast : -2147483648 ≤ n) (hgreatest : n ≤ 2147483647)
    (before behind : String) (hbefore : ∀ c ∈ before.toList, isBlank c = true)
    (hbehind : ∀ c ∈ behind.toList, isBlank c = true) :
    SpellsInteger (before ++ toString n ++ behind) n := by
  obtain ⟨sign, hsign, htext, hvalue⟩ := toList_decimal n
  have hshort : (Nat.toDigits 10 n.natAbs).length ≤ 10 :=
    (Nat.length_toDigits_le_iff (by decide) (by decide)).mpr (by omega)
  refine .intro ?_ hbefore hbehind hsign Nat.toDigits_ne_nil
    (fun c hc => Nat.isDigit_of_mem_toDigits (by decide) (by decide) hc)
    (Nat.le_trans hshort (by decide)) ?_ hleast hgreatest
  · rw [String.toList_append, String.toList_append, htext]
  · rw [Nat.ofDigitChars_ten_toDigits]
    exact hvalue

end Numeral

/-! ## Reading texts

Texts of truth values and reals are read by their own rules; what all have in common is that
they are stripped first. -/

namespace Scalar

/-- A numeral is a row of ASCII digits, perhaps behind a sign. -/
theorem isIntegerNumeral_iff {cs : List Char} :
    isIntegerNumeral cs = true ↔ ∃ sign ∈ signs, ∃ digits, cs = sign ++ digits ∧
      digits ≠ [] ∧ ∀ c ∈ digits, c.isDigit = true := by
  unfold isIntegerNumeral
  rw [Bool.and_eq_true, Bool.not_eq_true', List.isEmpty_eq_false_iff, List.all_eq_true]
  constructor
  · rintro ⟨hrow, hdigits⟩
    obtain ⟨sign, hsign, hcs⟩ := splitSign_signs cs
    exact ⟨sign, hsign, _, hcs, hrow, hdigits⟩
  · rintro ⟨sign, hsign, digits, rfl, hrow, hdigits⟩
    rw [splitSign_append hsign hrow hdigits]
    exact ⟨hrow, hdigits⟩

/-- A numeral between blanks is read as its value, if that is not too long and has
32 bits. -/
theorem toInteger_numeral {text : String} {sign digits : List Char}
    (htext : strip text = sign ++ digits) (hsign : sign ∈ signs) (hrow : digits ≠ [])
    (hdigits : ∀ c ∈ digits, c.isDigit = true) {n : Int} :
    (string text).toInteger = .ok n ↔
      digits.length ≤ 4300 ∧
        n = signed (decide (sign = ['-'])) (Nat.ofDigitChars 10 digits 0) ∧
        isInt32 n = true := by
  have hstripped : (String.ofList (strip text)).toList = sign ++ digits := by
    rw [String.toList_ofList, htext]
  have hread := readInteger_signed hsign
    ⟨hrow, fun c hc => isDigit_of_ascii (hdigits c hc)⟩ hstripped
  have hnumeral := isIntegerNumeral_iff.mpr ⟨sign, hsign, digits, htext, hrow, hdigits⟩
  unfold toInteger
  simp only [hnumeral, if_true, hread, decimalValue_ascii hdigits]
  by_cases hlong : 4300 < digits.length
  · simp [hlong, Nat.not_le.mpr hlong]
  · simp only [if_neg hlong, Nat.le_of_not_lt hlong, true_and]
    constructor
    · intro h
      split at h
      · next hfits =>
        cases h
        exact ⟨rfl, hfits⟩
      · cases h
    · rintro ⟨rfl, hfits⟩
      rw [if_pos hfits]

/-- Text is read as an integer exactly if it spells it. -/
theorem toInteger_iff {text : String} {n : Int} :
    (string text).toInteger = .ok n ↔ SpellsInteger text n := by
  constructor
  · intro h
    have hnumeral : isIntegerNumeral (strip text) = true := by
      unfold toInteger at h
      dsimp only at h
      split at h
      · next hnumeral => exact hnumeral
      · cases h
    obtain ⟨sign, hsign, digits, htext, hrow, hdigits⟩ := isIntegerNumeral_iff.mp hnumeral
    obtain ⟨hshort, hvalue, hfits⟩ :=
      (toInteger_numeral htext hsign hrow hdigits).mp h
    obtain ⟨before, behind, hsplit, hbefore, hbehind⟩ := stripBy_split isBlank text.toList
    obtain ⟨hleast, hgreatest⟩ := isInt32_iff.mp hfits
    refine .intro ?_ hbefore hbehind hsign hrow hdigits hshort hvalue hleast hgreatest
    rw [← htext]
    exact hsplit
  · rintro ⟨hsplit, hbefore, hbehind, hsign, hrow, hdigits, hshort, hvalue, hleast, hgreatest⟩
    refine (toInteger_numeral ?_ hsign hrow hdigits).mpr
      ⟨hshort, hvalue, isInt32_iff.mpr ⟨hleast, hgreatest⟩⟩
    unfold strip
    rw [hsplit]
    refine stripBy_padded hbefore hbehind fun c hc => ?_
    obtain hc | hc := List.mem_append.mp hc
    · exact isBlank_sign hsign c hc
    · exact isBlank_digit (hdigits c hc)

/-- The word of a truth value is read as it, with blanks around it too. -/
theorem toBoolean_word {before behind : String} (b : Bool)
    (hbefore : ∀ c ∈ before.toList, isBlank c = true)
    (hbehind : ∀ c ∈ behind.toList, isBlank c = true) :
    (string (before ++ (boolean b).toText ++ behind)).toBoolean = .ok b := by
  have hword : ∀ c ∈ (boolean b).toText.toList, isBlank c = false := by
    cases b <;> exact isBlank_of_all (by decide)
  have hstrip : strip (before ++ (boolean b).toText ++ behind) = (boolean b).toText.toList := by
    unfold strip
    rw [String.toList_append, String.toList_append]
    exact stripBy_padded hbefore hbehind hword
  unfold toBoolean
  dsimp only
  rw [hstrip]
  cases b <;> rfl

/-- An integer or a truth value is what its text is read as, with blanks around it
too. -/
theorem becomes_of_text {s : Scalar} (hs : s.kind = .integer ∨ s.kind = .boolean)
    (before behind : String) (hbefore : ∀ c ∈ before.toList, isBlank c = true)
    (hbehind : ∀ c ∈ behind.toList, isBlank c = true) :
    (Value.string (before ++ s.toText ++ behind)).Becomes s.kind (.scalar s) := by
  cases s with
  | integer w =>
    have hspells := spells_decimal (Int32.le_toInt w)
      (Int.le_of_lt_add_one (Int32.toInt_lt w)) before behind hbefore hbehind
    have hread := toInteger_iff.mpr hspells
    exact Value.Becomes.integer hread rfl
  | boolean b =>
    have hread := toBoolean_word b hbefore hbehind
    exact Value.Becomes.boolean hread
  | real _ | string _ => simp [kind] at hs

end Scalar

namespace Value

/-- A slot with an integer or a truth value, or an unset one, is what its text is read
as. -/
theorem slot_through_text {kind : ScalarKind} (hkind : kind = .integer ∨ kind = .boolean)
    {slot : Option Value} (h : ∀ content, slot = some content → content.IsScalarOf kind) :
    ∃ text, Option.Rel (Becomes · .string) slot text ∧
      Option.Rel (Becomes · kind) text slot := by
  cases slot with
  | none => exact ⟨none, .none, .none⟩
  | some content =>
    have hof := h content rfl
    obtain ⟨s, rfl⟩ := hof.scalar
    obtain rfl : s.kind = kind := hof.kind
    have hback := s.becomes_of_text hkind "" "" (by simp) (by simp)
    rw [String.empty_append, String.append_empty] at hback
    exact ⟨some (string s.toText), .some (.string (by rw [toText])), .some hback⟩

/-- The slots of integers or of truth values are what their texts are read as. -/
theorem slots_through_text {kind : ScalarKind}
    (hkind : kind = .integer ∨ kind = .boolean) {slots : List (Option Value)}
    (h : ∀ slot ∈ slots, ∀ content, slot = some content → content.IsScalarOf kind) :
    ∃ texts, List.Forall₂ (Option.Rel (Becomes · .string)) slots texts ∧
      List.Forall₂ (Option.Rel (Becomes · kind)) texts slots := by
  induction slots with
  | nil => exact ⟨[], .nil, .nil⟩
  | cons slot rest ih =>
    obtain ⟨hslot, hrest⟩ := List.forall_mem_cons.mp h
    obtain ⟨text, hto, hback⟩ := slot_through_text hkind hslot
    obtain ⟨texts, htos, hbacks⟩ := ih hrest
    exact ⟨text :: texts, .cons hto htos, .cons hback hbacks⟩

/-- An array of integers or of truth values is what its texts are read as. -/
theorem array_through_text {kind : ScalarKind}
    (hkind : kind = .integer ∨ kind = .boolean) {slots : List (Option Value)} {length : Int}
    (h : (Value.array slots).Conforms ⟨kind, some length⟩) :
    ∃ texts, (Value.array slots).convert ⟨.string, some length⟩ = .ok texts ∧
      texts.convert ⟨kind, some length⟩ = .ok (.array slots) := by
  obtain ⟨rfl, hslots⟩ : (slots.length : Int) = length ∧ _ := h
  obtain ⟨texts, hto, hback⟩ := slots_through_text hkind hslots
  refine ⟨.array texts, convert_ok_iff.mpr (.array rfl hto), convert_ok_iff.mpr ?_⟩
  exact .array (by rw [hto.length_eq]) hback

/-- Integers and truth values go through text unharmed: written and read back with any
blanks around, and slot by slot in an array, they are what they were.  A text is read as
an integer exactly if it spells it, and then the decimal text of that integer is read as
the same. -/
theorem text_round_trip :
    (∀ s : Scalar, s.kind = .integer ∨ s.kind = .boolean → ∀ before behind : String,
      (∀ c ∈ before.toList, isBlank c = true) → (∀ c ∈ behind.toList, isBlank c = true) →
        (string (before ++ s.toText ++ behind)).convert ⟨s.kind, none⟩ = .ok (.scalar s)) ∧
      (∀ (kind : ScalarKind) (slots : List (Option Value)) (length : Int),
        kind = .integer ∨ kind = .boolean →
        (Value.array slots).Conforms ⟨kind, some length⟩ →
          ∃ texts, (Value.array slots).convert ⟨.string, some length⟩ = .ok texts ∧
            texts.convert ⟨kind, some length⟩ = .ok (.array slots)) ∧
      ∀ (text : String) (n : Int),
        ((Scalar.string text).toInteger = .ok n ↔ SpellsInteger text n) ∧
          ((Scalar.string text).toInteger = .ok n →
            (Scalar.string (toString n)).toInteger = .ok n) := by
  refine ⟨fun s hs before behind hbefore hbehind => ?_, fun kind slots length => ?_,
    fun text n => ⟨Scalar.toInteger_iff, fun h => ?_⟩⟩
  · rw [convert_plain rfl, convertScalar_ok_iff]
    exact s.becomes_of_text hs before behind hbefore hbehind
  · exact fun hkind h => array_through_text hkind h
  · obtain ⟨_, _, _, _, _, _, _, _, hleast, hgreatest⟩ := Scalar.toInteger_iff.mp h
    have hdecimal := spells_decimal hleast hgreatest "" "" (by simp) (by simp)
    rw [String.empty_append, String.append_empty] at hdecimal
    exact Scalar.toInteger_iff.mpr hdecimal

/-- The least integer between blanks, an array with an unset slot, and a text with
leading zeros. -/
theorem text_round_trip_least :
    (string ("\t" ++ "-2147483648" ++ " ")).convert ⟨.integer, none⟩ =
        .ok (.scalar (.integer Int32.minValue)) ∧
      (∃ texts, (Value.array [some (boolean true), none]).convert ⟨.string, some 2⟩ =
          .ok texts ∧
        texts.convert ⟨.boolean, some 2⟩ = .ok (.array [some (boolean true), none])) ∧
      (Scalar.string " +007 ").toInteger = .ok 7 ∧
      (Scalar.string (toString (7 : Int))).toInteger = .ok 7 := by
  have hconforms : (Value.array [some (boolean true), none]).Conforms ⟨.boolean, some 2⟩ := by
    refine ⟨rfl, fun slot hslot content hcontent => ?_⟩
    simp only [List.mem_cons, List.not_mem_nil, or_false] at hslot
    obtain rfl | rfl := hslot
    · cases hcontent
      trivial
    · cases hcontent
  have hsplit : " +007 ".toList = [' '] ++ (['+'] ++ ['0', '0', '7']) ++ [' '] := by decide
  have hspace : ∀ c ∈ " ".toList, isBlank c = true := List.all_eq_true.mp (by decide)
  have htab : ∀ c ∈ "\t".toList, isBlank c = true := List.all_eq_true.mp (by decide)
  have hdigits : ∀ c ∈ ['0', '0', '7'], c.isDigit = true := List.all_eq_true.mp (by decide)
  have hspells : SpellsInteger " +007 " 7 :=
    .intro hsplit hspace hspace (by decide) (by decide) hdigits (by decide) (by decide)
      (by decide) (by decide)
  have hread := (text_round_trip.2.2 " +007 " 7).1.mpr hspells
  exact ⟨text_round_trip.1 (.integer Int32.minValue) (.inl rfl) "\t" " " htab hspace,
    text_round_trip.2.1 .boolean _ 2 (.inr rfl) hconforms, hread,
    (text_round_trip.2.2 " +007 " 7).2 hread⟩

end Value

end Pseudocode
