import Mathlib.Data.String.Basic
import Pseudocode.Value.Arithmetic

/-!
# Comparing values

Two texts, two integers or truth values, or two numbers can be compared; whether they
can depends neither on the comparison nor on which of them comes first
(`declines_iff`).

A text has a key, itself, and so has an integer or a truth value, a whole number.  To
compare two values with keys of one kind is to ask for a relation of their keys
(`affirms_iff`), so the laws of a total order are those of the keys
(`compare_total`).  What comes first of two texts is told by `Precedes`.

Of two reals, or of a real and an integer, less is known: not a number is neither less than,
equal to nor greater than anything.  They can be compared all the same, and that is all that
is said of them; the order is stated for values that are `Akin`.

The code compares texts as lists of characters, with the order that lists have anyway.  That
this is the order of a dictionary by code points is shown from the first difference on
(`lt_of_precedes`, `precedes_of_lt`).
-/

namespace Pseudocode

namespace Comparison

/-- The comparisons that have a meaning. -/
def known : List Comparison :=
  [.equal, .notEqual, .less, .lessOrEqual, .greater, .greaterOrEqual]

/-- What a comparison asks of two things that have an order. -/
def Relates {κ : Type} [LinearOrder κ] : Comparison → κ → κ → Prop
  | .equal, x, y => x = y
  | .notEqual, x, y => x ≠ y
  | .less, x, y => x < y
  | .lessOrEqual, x, y => x ≤ y
  | .greater, x, y => y < x
  | .greaterOrEqual, x, y => y ≤ x
  | .other _, _, _ => False

/-- Each of the six comparisons answers, however two values are ordered. -/
theorem holds_defined {op : Comparison} (hop : op ∈ known) (less equal greater : Bool) :
    ∃ answer, op.holds less equal greater = .ok answer := by
  cases op with
  | other symbol => simp [known] at hop
  | _ => exact ⟨_, rfl⟩

/-- The answer of a comparison is whether its relation holds. -/
theorem holds_iff {κ : Type} [LinearOrder κ] (op : Comparison) (x y : κ) :
    op.holds (decide (x < y)) (decide (x = y)) (decide (y < x)) = .ok true ↔
      op.Relates x y := by
  cases op with
  | equal | notEqual | less | greater => simp [holds, Relates]
  | lessOrEqual =>
    show Except.ok (decide (x < y) || decide (x = y)) = .ok true ↔ x ≤ y
    rw [Except.ok.injEq, Bool.or_eq_true, decide_eq_true_eq, decide_eq_true_eq,
      le_iff_lt_or_eq]
  | greaterOrEqual =>
    show Except.ok (decide (y < x) || decide (x = y)) = .ok true ↔ y ≤ x
    rw [Except.ok.injEq, Bool.or_eq_true, decide_eq_true_eq, decide_eq_true_eq,
      le_iff_lt_or_eq, eq_comm (a := x)]
  | other symbol => simp [holds, Relates]

/-- What is less, not greater, or equal, is so by way of a third key. -/
theorem Relates.trans {κ : Type} [LinearOrder κ] {op : Comparison} {x y z : κ}
    (hop : op ∈ [less, lessOrEqual, equal]) (hxy : op.Relates x y)
    (hyz : op.Relates y z) : op.Relates x z := by
  obtain rfl | rfl | rfl : op = less ∨ op = lessOrEqual ∨ op = equal := by
    simpa using hop
  · exact lt_trans (a := x) hxy hyz
  · exact le_trans (a := x) hxy hyz
  · exact Eq.trans (a := x) hxy hyz

end Comparison

namespace Value

variable {a b c : Value} {op : Comparison}

/-- A comparison of two values is refused as a conversion. -/
def Declines (op : Comparison) (a b : Value) : Prop :=
  ∃ fault, compare op a b = .error (.conversion fault)

/-- A comparison of two values says yes. -/
def Affirms (op : Comparison) (a b : Value) : Prop :=
  compare op a b = .ok true

/-! ## Which values can be compared -/

/-- Whether two values can be compared. -/
def comparable (a b : Value) : Bool :=
  a.isText && b.isText || (a.isDiscrete && b.isDiscrete || a.isNumber && b.isNumber)

/-- Which of two values comes first makes no difference to whether they can be compared. -/
theorem comparable_comm (a b : Value) : comparable a b = comparable b a := by
  unfold comparable
  rw [Bool.and_comm a.isText, Bool.and_comm a.isDiscrete, Bool.and_comm a.isNumber]

/-- A text is one. -/
theorem isText_iff : a.isText = true ↔ ∃ text, a = .string text := by
  constructor
  · intro h
    unfold isText at h
    split at h
    · exact ⟨_, rfl⟩
    · cases h
  · rintro ⟨text, rfl⟩
    rfl

/-- An integer or a truth value is read as an integer. -/
theorem exists_integer (h : a.isDiscrete = true) : ∃ n, a.toInteger = .ok n := by
  unfold isDiscrete at h
  split at h
  · exact ⟨_, rfl⟩
  · exact ⟨_, rfl⟩
  · cases h

/-- A number is read as a real. -/
theorem exists_real (h : a.isNumber = true) : ∃ x, a.toReal = .ok x := by
  unfold isNumber at h
  split at h
  · exact ⟨_, rfl⟩
  · exact ⟨_, rfl⟩
  · cases h

/-- What is not two texts is compared as integers, or else as reals. -/
theorem compare_eq (h : ¬ (a.isText && b.isText) = true) (op : Comparison) :
    compare op a b =
      if a.isDiscrete && b.isDiscrete then do
        let x ← a.toInteger
        let y ← b.toInteger
        op.holds (x < y) (x = y) (y < x)
      else if a.isNumber && b.isNumber then do
        let x ← a.toReal
        let y ← b.toReal
        op.holds (x < y) (x == y) (y < x)
      else .error (b.failure (.kind a.kind) (.incomparable op.symbol)) := by
  unfold compare
  split
  · exact absurd rfl h
  · rfl

/-- Values that can be compared are found less, equal or greater before the comparison
is looked at. -/
theorem exists_answers (h : comparable a b = true) : ∃ less equal greater : Bool,
    ∀ op, compare op a b = op.holds less equal greater := by
  by_cases htext : (a.isText && b.isText) = true
  · obtain ⟨ha, hb⟩ := (Bool.and_eq_true _ _).mp htext
    obtain ⟨x, rfl⟩ := isText_iff.mp ha
    obtain ⟨y, rfl⟩ := isText_iff.mp hb
    exact ⟨_, _, _, fun op => rfl⟩
  by_cases hdiscrete : (a.isDiscrete && b.isDiscrete) = true
  · obtain ⟨ha, hb⟩ := (Bool.and_eq_true _ _).mp hdiscrete
    obtain ⟨x, hx⟩ := exists_integer ha
    obtain ⟨y, hy⟩ := exists_integer hb
    refine ⟨decide (x < y), decide (x = y), decide (y < x), fun op => ?_⟩
    rw [compare_eq htext, if_pos hdiscrete, hx, hy]
    rfl
  · have hnumber : (a.isNumber && b.isNumber) = true := by
      simpa [comparable, htext, hdiscrete] using h
    obtain ⟨ha, hb⟩ := (Bool.and_eq_true _ _).mp hnumber
    obtain ⟨x, hx⟩ := exists_real ha
    obtain ⟨y, hy⟩ := exists_real hb
    refine ⟨decide (x < y), x == y, decide (y < x), fun op => ?_⟩
    rw [compare_eq htext, if_neg hdiscrete, if_pos hnumber, hx, hy]
    rfl

/-- A comparison is refused exactly for values that cannot be compared. -/
theorem declines_iff (hop : op ∈ Comparison.known) :
    Declines op a b ↔ comparable a b = false := by
  cases hcomparable : comparable a b with
  | true =>
    obtain ⟨less, equal, greater, hanswers⟩ := exists_answers hcomparable
    obtain ⟨answer, hanswer⟩ := Comparison.holds_defined hop less equal greater
    refine iff_of_false ?_ nofun
    rintro ⟨fault, hfails⟩
    rw [hanswers, hanswer] at hfails
    cases hfails
  | false =>
    refine iff_of_true ?_ rfl
    unfold comparable at hcomparable
    obtain ⟨htext, hrest⟩ := Bool.or_eq_false_iff.mp hcomparable
    obtain ⟨hdiscrete, hnumber⟩ := Bool.or_eq_false_iff.mp hrest
    refine ⟨⟨b.kind, .kind a.kind, .incomparable op.symbol⟩, ?_⟩
    rw [compare_eq (Bool.eq_false_iff.mp htext), if_neg (Bool.eq_false_iff.mp hdiscrete),
      if_neg (Bool.eq_false_iff.mp hnumber)]
    rfl

/-! ## The order -/

/-- The whole number that an integer or a truth value is compared by. -/
def rank? : Value → Option Int
  | scalar (.integer n) => some n.toInt
  | scalar (.boolean b) => some (if b then 1 else 0)
  | _ => none

/-- Comparing two values is comparing two keys. -/
def KeyedBy {κ : Type} [LinearOrder κ] (a b : Value) (x y : κ) : Prop :=
  ∀ op, compare op a b = op.holds (decide (x < y)) (decide (x = y)) (decide (y < x))

/-- Texts are compared by themselves. -/
theorem keyedBy_text (x y : String) : KeyedBy (.string x) (.string y) x y := by
  intro op
  show op.holds _ _ _ = op.holds _ _ _
  congr

/-- Integers and truth values are compared by their ranks. -/
theorem keyedBy_rank {x y : Int} (ha : a.rank? = some x) (hb : b.rank? = some y) :
    KeyedBy a b x y := by
  intro op
  unfold rank? at ha hb
  split at ha <;> split at hb <;> cases ha <;> cases hb <;> rfl

/-- A comparison of two values says yes exactly if their keys are so related. -/
theorem affirms_iff {κ : Type} [LinearOrder κ] {x y : κ} (h : KeyedBy a b x y) :
    Affirms op a b ↔ op.Relates x y := by
  unfold Affirms
  rw [h op, Comparison.holds_iff]

/-- Two texts, or two values that are integers or truth values. -/
def Akin (a b : Value) : Prop :=
  (∃ x y, a = .string x ∧ b = .string y) ∨ ∃ x y, a.rank? = some x ∧ b.rank? = some y

/-- Two values stand in an order: every comparison has an answer, exactly one of `<`,
`==` and `>` says yes, and the others go by these. -/
structure Ordered (a b : Value) : Prop where
  answers : ∀ op ∈ Comparison.known, ∃ answer, compare op a b = .ok answer
  one : ∃! op, op ∈ [Comparison.less, .equal, .greater] ∧ Affirms op a b
  notEqual : Affirms .notEqual a b ↔ ¬ Affirms .equal a b
  lessOrEqual : Affirms .lessOrEqual a b ↔ Affirms .less a b ∨ Affirms .equal a b
  greaterOrEqual :
    Affirms .greaterOrEqual a b ↔ Affirms .greater a b ∨ Affirms .equal a b
  converse : Affirms .less a b ↔ Affirms .greater b a

/-- Values with keys of one kind are ordered as the keys are. -/
theorem ordered_of_keys {κ : Type} [LinearOrder κ] {x y : κ} (hab : KeyedBy a b x y)
    (hba : KeyedBy b a y x) : Ordered a b where
  answers op hop := by
    obtain ⟨answer, hanswer⟩ :=
      Comparison.holds_defined hop (decide (x < y)) (decide (x = y)) (decide (y < x))
    exact ⟨answer, (hab op).trans hanswer⟩
  one := by
    have hone : ∃! op, op ∈ [Comparison.less, .equal, .greater] ∧ op.Relates x y := by
      obtain hlt | heq | hgt := lt_trichotomy x y
      · refine ⟨.less, ⟨by simp, hlt⟩, ?_⟩
        rintro op ⟨hop, hrelates⟩
        obtain rfl | rfl | rfl : op = .less ∨ op = .equal ∨ op = .greater := by
          simpa using hop
        · rfl
        · exact absurd hrelates hlt.ne
        · exact absurd hrelates hlt.asymm
      · refine ⟨.equal, ⟨by simp, heq⟩, ?_⟩
        rintro op ⟨hop, hrelates⟩
        obtain rfl | rfl | rfl : op = .less ∨ op = .equal ∨ op = .greater := by
          simpa using hop
        · exact absurd heq hrelates.ne
        · rfl
        · exact absurd heq hrelates.ne'
      · refine ⟨.greater, ⟨by simp, hgt⟩, ?_⟩
        rintro op ⟨hop, hrelates⟩
        obtain rfl | rfl | rfl : op = .less ∨ op = .equal ∨ op = .greater := by
          simpa using hop
        · exact absurd hrelates hgt.asymm
        · exact absurd hrelates hgt.ne'
        · rfl
    simpa only [affirms_iff hab] using hone
  notEqual := by
    rw [affirms_iff hab, affirms_iff hab]
    exact Iff.rfl
  lessOrEqual := by
    rw [affirms_iff hab, affirms_iff hab, affirms_iff hab]
    exact le_iff_lt_or_eq
  greaterOrEqual := by
    rw [affirms_iff hab, affirms_iff hab, affirms_iff hab]
    exact le_iff_lt_or_eq.trans (or_congr_right eq_comm)
  converse := by
    rw [affirms_iff hab, affirms_iff hba]
    exact Iff.rfl

/-- Two texts are ordered, and so are two integers or truth values. -/
theorem Akin.ordered (h : Akin a b) : Ordered a b := by
  obtain ⟨x, y, rfl, rfl⟩ | ⟨x, y, ha, hb⟩ := h
  · exact ordered_of_keys (keyedBy_text x y) (keyedBy_text y x)
  · exact ordered_of_keys (keyedBy_rank ha hb) (keyedBy_rank hb ha)

/-- A text has no rank, so three values in a row have keys of one kind. -/
theorem Akin.trans (hab : Akin a b) (hbc : Akin b c)
    (hop : op ∈ [Comparison.less, .lessOrEqual, .equal]) (h : Affirms op a b)
    (h' : Affirms op b c) : Affirms op a c := by
  obtain ⟨x, y, rfl, rfl⟩ | ⟨x, y, ha, hb⟩ := hab
  · obtain ⟨y', z, hy, rfl⟩ | ⟨y', z, hy, -⟩ := hbc
    · cases hy
      rw [affirms_iff (keyedBy_text _ _)] at h h' ⊢
      exact h.trans hop h'
    · cases hy
  · obtain ⟨y', z, rfl, rfl⟩ | ⟨y', z, hb', hc⟩ := hbc
    · cases hb
    · obtain rfl := Option.some.inj (hb.symm.trans hb')
      rw [affirms_iff (keyedBy_rank ha hb)] at h
      rw [affirms_iff (keyedBy_rank hb hc)] at h'
      rw [affirms_iff (keyedBy_rank ha hc)]
      exact h.trans hop h'

end Value

/-! ## The order of texts -/

/-- One text comes before another: it is a proper prefix, or at the first place where
they differ it has the character of the smaller code. -/
def Precedes (x y : List Char) : Prop :=
  (∃ first rest, y = x ++ first :: rest) ∨
    ∃ shared c d xs ys, x = shared ++ c :: xs ∧ y = shared ++ d :: ys ∧
      c.toNat < d.toNat

/-- A character in front of both makes no difference to which text comes first. -/
theorem Precedes.cons {x y : List Char} (h : Precedes x y) (c : Char) :
    Precedes (c :: x) (c :: y) := by
  obtain ⟨first, rest, rfl⟩ | ⟨shared, d, e, xs, ys, rfl, rfl, hlt⟩ := h
  · exact .inl ⟨first, rest, rfl⟩
  · exact .inr ⟨c :: shared, d, e, xs, ys, rfl, rfl, hlt⟩

/-- The text that comes first by its first difference is less. -/
theorem lt_of_precedes {x y : List Char} (h : Precedes x y) : x < y := by
  obtain ⟨first, rest, rfl⟩ | ⟨shared, c, d, xs, ys, rfl, rfl, hlt⟩ := h
  · induction x with
    | nil => exact List.nil_lt_cons ..
    | cons c x ih => exact List.cons_lt_cons_iff.mpr (.inr ⟨rfl, ih⟩)
  · induction shared with
    | nil => exact List.cons_lt_cons_iff.mpr (.inl hlt)
    | cons c shared ih => exact List.cons_lt_cons_iff.mpr (.inr ⟨rfl, ih⟩)

/-- The text that is less comes first: it is where the other goes on, or they differ
somewhere. -/
theorem precedes_of_lt {x y : List Char} (h : x < y) : Precedes x y := by
  induction x generalizing y with
  | nil =>
    cases y with
    | nil => exact absurd h (List.not_lt_nil _)
    | cons d y => exact .inl ⟨d, y, rfl⟩
  | cons c x ih =>
    cases y with
    | nil => exact absurd h (List.not_lt_nil _)
    | cons d y =>
      obtain hlt | ⟨rfl, hlt⟩ := List.cons_lt_cons_iff.mp h
      · exact .inr ⟨[], c, d, x, y, rfl, rfl, hlt⟩
      · exact (ih hlt).cons c

open Value in
/-- Comparing is a total order where it is defined.  Two values can be compared by one
comparison just if they can by all, in either order; two texts, or two integers or
truth values, stand in an order, which goes on from one pair to the next; and texts
have the order of a dictionary. -/
theorem compare_total :
    (∀ a b, ∀ op ∈ Comparison.known, Declines op a b ↔
      ∀ op' ∈ Comparison.known, Declines op' a b ∧ Declines op' b a) ∧
    (∀ a b, Akin a b → Ordered a b) ∧
    (∀ a b c, Akin a b → Akin b c →
      ∀ op ∈ [Comparison.less, .lessOrEqual, .equal],
        Affirms op a b → Affirms op b c → Affirms op a c) ∧
    ∀ x y, Affirms .less (.string x) (.string y) ↔ Precedes x.toList y.toList := by
  refine ⟨fun a b op hop => ?_, fun _ _ h => h.ordered,
    fun _ _ _ hab hbc op hop h h' => hab.trans hbc hop h h', fun x y => ?_⟩
  · constructor
    · intro h op' hop'
      have hnot := (declines_iff hop).mp h
      exact ⟨(declines_iff hop').mpr hnot,
        (declines_iff hop').mpr ((comparable_comm b a).trans hnot)⟩
    · exact fun h => (h op hop).1
  · rw [affirms_iff (keyedBy_text x y)]
    exact String.lt_iff_toList_lt.trans ⟨precedes_of_lt, lt_of_precedes⟩

open Value in
/-- False is below true and true below 2, so false is below 2. -/
theorem compare_total_mixed :
    Ordered (.boolean true) (.integer 1) ∧ Affirms .less (.boolean false) (.integer 2) ∧
      Affirms .less (.string "ab") (.string "abc") := by
  have hakin : Akin (.boolean false) (.boolean true) := .inr ⟨0, 1, rfl, rfl⟩
  have hakin' : Akin (.boolean true) (.integer 2) := .inr ⟨1, 2, rfl, rfl⟩
  refine ⟨compare_total.2.1 _ _ (.inr ⟨1, 1, rfl, rfl⟩), ?_, ?_⟩
  · exact compare_total.2.2.1 _ _ _ hakin hakin' .less (by simp) rfl rfl
  · exact (compare_total.2.2.2 "ab" "abc").mpr (.inl ⟨'c', [], by decide⟩)

end Pseudocode
