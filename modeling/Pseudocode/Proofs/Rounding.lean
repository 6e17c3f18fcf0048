import Pseudocode.Proofs.Rounding.Halves
import Pseudocode.Value

/-!
# Reals become the nearest integer, but for some

A real becomes an integer by adding one half and cutting, halves going away from zero, and
so it becomes the integer next to it whenever the sum with one half has the whole part of
the exact sum.  What remains are the reals that slip: the two next to one half and minus
one half on the side of zero, and the odd numbers with 53 digits.  They go to the integer
behind the nearest one.

"Next to" is said of exact numbers (`HalfAway`): nearer than one half, or just one half away
on the far side of zero.  There is one such integer for each number (`HalfAway.unique`), and
for a magnitude it is the whole part of the exact sum with one half (`halfAway_floor`).  So
what is left to compare are two whole parts, that of the exact sum and that of the sum as
arithmetic rounds it, and this is `floor_sum` of the module before.  Numbers below zero are
the mirror image (`HalfAway.neg`), for the half is taken away there.

An integer of 32 bits is none of the large ones, before or after, so that reading a real as
an integer goes wrong only next to one half (`reals_rounded`).
-/

namespace Pseudocode.Numeral

open Float.Model Float.Model.UnpackedFloat

namespace Binary64

/-- Cutting a magnitude gives the whole part of its value. -/
theorem floorOf_eq (m : Nat) (e : Int) : floorOf false m e = ⌊dyadic m e⌋ := by
  unfold floorOf dyadic
  by_cases he : 0 ≤ e
  · obtain ⟨k, rfl⟩ := Int.eq_ofNat_of_zero_le he
    rw [if_pos he]
    show (m : Int) * ((2 ^ k : Nat) : Int) = _
    rw [zpow_natCast]
    have : (m : ℚ) * 2 ^ k = ((m * 2 ^ k : Nat) : ℚ) := by push_cast; rfl
    rw [this, Int.floor_natCast, Int.natCast_mul]
  · obtain ⟨k, rfl⟩ : ∃ k : Nat, e = -k := ⟨(-e).toNat, by omega⟩
    rw [if_neg he]
    show (m : Int).fdiv ((2 ^ (- -(k : Int)).toNat : Nat) : Int) = _
    rw [Int.neg_neg, Int.toNat_natCast, zpow_neg, zpow_natCast, ← div_eq_mul_inv,
      Int.fdiv_eq_ediv_of_nonneg _ (Int.natCast_nonneg _)]
    have : (m : ℚ) / 2 ^ k = ((m : Int) : ℚ) / ((2 ^ k : Nat) : ℚ) := by push_cast; rfl
    rw [this, Rat.floor_intCast_div_natCast]

end Binary64

/-- The exact number that a finite real stands for. -/
def Binary64.rational? : Binary64 → Option ℚ
  | .finite negative mantissa exponent =>
    some (if negative then -dyadic mantissa exponent else dyadic mantissa exponent)
  | _ => none

/-- A real that has a value has it as a sign and a magnitude. -/
theorem Binary64.rational?_some {b : Binary64} {v : ℚ} (h : b.rational? = some v) :
    ∃ negative mantissa exponent, b = .finite negative mantissa exponent ∧
      v = if negative then -dyadic mantissa exponent else dyadic mantissa exponent := by
  unfold rational? at h
  split at h
  · exact ⟨_, _, _, rfl, (Option.some.inj h).symm⟩
  · cases h

open Binary64

/-! ## Integers next to a number -/

/-- The whole number next to a number; of two such the one that is further from zero. -/
def HalfAway (v : ℚ) (n : Int) : Prop :=
  |v - n| < 1 / 2 ∨ |v - n| = 1 / 2 ∧ |v| < |(n : ℚ)|

/-- What is next to a number is, on the other side of zero, next to its opposite. -/
theorem HalfAway.neg {v : ℚ} {n : Int} (h : HalfAway v n) : HalfAway (-v) (-n) := by
  unfold HalfAway at h ⊢
  rw [Int.cast_neg, abs_neg, abs_neg, neg_sub_neg, abs_sub_comm]
  exact h

/-- Next to a magnitude is the whole part of its sum with one half. -/
theorem halfAway_floor {v : ℚ} (hv : 0 ≤ v) : HalfAway v ⌊v + 1 / 2⌋ := by
  have hle := Int.floor_le (v + 1 / 2)
  have hlt := Int.lt_floor_add_one (v + 1 / 2)
  generalize ⌊v + 1 / 2⌋ = n at *
  obtain heq | hne := eq_or_ne (n : ℚ) (v + 1 / 2)
  · refine .inr ⟨?_, ?_⟩
    · rw [heq, sub_add_cancel_left, abs_neg, abs_of_pos (by norm_num)]
    · rw [heq, abs_of_nonneg hv, abs_of_nonneg (by linarith)]
      linarith
  · refine .inl (abs_lt.mpr ⟨?_, by linarith⟩)
    have := lt_of_le_of_ne hle hne
    linarith

/-- What is next to a number is at most one half away. -/
theorem HalfAway.half {v : ℚ} {n : Int} (h : HalfAway v n) : |v - n| ≤ 1 / 2 := by
  obtain h | ⟨h, -⟩ := h
  · exact h.le
  · exact h.le

/-- Of two whole numbers with a half between them only one is further from zero. -/
theorem HalfAway.not_lt {v : ℚ} {n n' : Int} (h : HalfAway v n) (h' : HalfAway v n') :
    ¬ n < n' := by
  intro hlt
  have hstep : (n : ℚ) + 1 ≤ n' := by exact_mod_cast hlt
  have hright := (abs_le.mp h.half).2
  have hleft := (abs_le.mp h'.half).1
  have hv : v = n + 1 / 2 := by linarith
  have hn' : (n' : ℚ) = n + 1 := by linarith
  have hhalf : ¬ |v - n| < 1 / 2 := by
    rw [hv, add_sub_cancel_left, abs_of_pos (by norm_num)]
    exact lt_irrefl _
  have hhalf' : ¬ |v - n'| < 1 / 2 := by
    rw [hv, hn', add_sub_add_left_eq_sub, abs_of_neg (by norm_num)]
    norm_num
  have haway := (h.resolve_left hhalf).2
  have haway' := (h'.resolve_left hhalf').2
  rw [hv] at haway haway'
  rw [hn'] at haway'
  by_cases hn : 0 ≤ n
  · have hn : (0 : ℚ) ≤ n := by exact_mod_cast hn
    rw [abs_of_nonneg (by linarith), abs_of_nonneg hn] at haway
    linarith
  · have hn : (n : ℚ) + 1 ≤ 0 := by exact_mod_cast (show n + 1 ≤ 0 by omega)
    rw [abs_of_nonpos (by linarith), abs_of_nonpos hn] at haway'
    linarith

/-- Only one integer is next to a number. -/
theorem HalfAway.unique {v : ℚ} {n n' : Int} (h : HalfAway v n) (h' : HalfAway v n') :
    n = n' :=
  le_antisymm (Int.not_lt.mp (h'.not_lt h)) (Int.not_lt.mp (h.not_lt h'))

/-! ## Cutting -/

/-- A real is compared to zero by its sign, zero itself apart. -/
theorem nonneg_iff {x : Float} {negative : Bool} {mantissa : Nat} {exponent : Int}
    (hx : ofFloat x = .finite negative mantissa exponent) :
    x ≥ 0 ↔ negative = false ∨ mantissa = 0 := by
  have hzero : ofFloat 0 = .finite false 0 (-1074) := by decide +kernel
  show decide ((0 : Float).toModel.unpack.le x.toModel.unpack = true) = true ↔ _
  rw [unpack_finite_zero hzero]
  obtain rfl | h := Nat.eq_zero_or_pos mantissa
  · rw [unpack_finite_zero hx]
    exact iff_of_true rfl (.inr rfl)
  · rw [unpack_finite hx h]
    cases negative with
    | false => exact iff_of_true rfl (.inl rfl)
    | true =>
      exact iff_of_false (show ¬ decide (false = true) = true by decide)
        fun hle => hle.elim nofun h.ne'

/-- Zero becomes zero, whatever its sign. -/
theorem roundHalfAway_zero {x : Float} {negative : Bool} {exponent : Int}
    (hx : ofFloat x = .finite negative 0 exponent) : roundHalfAway x = .ok 0 := by
  obtain ⟨hhalf, hunpack⟩ := unpack_half
  have hsum : x + 0.5 = .ofModel (.pack (.finite (signOf false) (2 ^ 52) (-53) hhalf)) := by
    show Float.ofModel (.pack (UnpackedFloat.add Format.binary64 x.toModel.unpack
      (0.5 : Float).toModel.unpack)) = _
    rw [unpack_finite_zero hx, hunpack]
    rfl
  have hshape : Shape (2 ^ 52) (-53) := ⟨by omega, .inl le_rfl, by omega, by omega⟩
  unfold roundHalfAway cutBy
  rw [if_pos ((nonneg_iff hx).mpr (.inr rfl)), hsum, ofFloat_pack hhalf le_rfl hshape]
  rfl

/-- A real is cut from the sum on its own side. -/
theorem roundHalfAway_eq {x : Float} {negative : Bool} {mantissa : Nat} {exponent : Int}
    (hx : ofFloat x = .finite negative mantissa exponent) (h : 0 < mantissa)
    {m : Nat} {e : Int} (hmoved : ofFloat (moved x negative) = .finite negative m e) :
    roundHalfAway x = .ok (if negative then -⌊dyadic m e⌋ else ⌊dyadic m e⌋) := by
  unfold roundHalfAway
  cases negative with
  | true =>
    rw [if_neg fun hle => ((nonneg_iff hx).mp hle).elim nofun h.ne']
    show cutBy ceilOf (moved x true) = _
    unfold cutBy
    rw [hmoved]
    show Except.ok (-floorOf false m e) = _
    rw [floorOf_eq]
    rfl
  | false =>
    rw [if_pos ((nonneg_iff hx).mpr (.inl rfl))]
    show cutBy floorOf (moved x false) = _
    unfold cutBy
    rw [hmoved]
    show Except.ok (floorOf false m e) = _
    rw [floorOf_eq]
    rfl

/-- Rounding gives the integer next to a real, and the one behind if the real slips. -/
theorem roundHalfAway_spec {x : Float} {v : ℚ} (hx : (ofFloat x).rational? = some v) :
    ∃ n, HalfAway v n ∧ (¬ Slips |v| → roundHalfAway x = .ok n) ∧
      (Slips |v| → roundHalfAway x = .ok (if v < 0 then n - 1 else n + 1)) := by
  obtain ⟨negative, mantissa, exponent, hparts, rfl⟩ := rational?_some hx
  have hv := dyadic_nonneg mantissa exponent
  have habs : |if negative then -dyadic mantissa exponent else dyadic mantissa exponent| =
      dyadic mantissa exponent := by
    cases negative with
    | true => exact (abs_neg _).trans (abs_of_nonneg hv)
    | false => exact abs_of_nonneg hv
  rw [habs]
  obtain rfl | hpos := Nat.eq_zero_or_pos mantissa
  · have hnone : dyadic 0 exponent = 0 := by
      unfold dyadic
      rw [Nat.cast_zero, zero_mul]
    have hslips : ¬ Slips 0 := by
      rintro (h | ⟨h, -⟩) <;> norm_num at h
    rw [hnone]
    refine ⟨0, ?_, fun _ => roundHalfAway_zero hparts, fun h => absurd h hslips⟩
    cases negative <;> exact .inl (by norm_num)
  obtain ⟨m, e, hmoved, hshape, hlow, hnearest⟩ := moved_spec hparts hpos
  obtain ⟨hplain, hslip⟩ := floor_sum hnearest (shape_of_finite hparts) hlow hshape.below
  have hrounded := roundHalfAway_eq hparts hpos hmoved
  have hv' : 0 < dyadic mantissa exponent :=
    mul_pos (Nat.cast_pos.mpr hpos) (two_zpow_pos exponent)
  have haway := halfAway_floor hv
  cases negative with
  | true =>
    refine ⟨_, haway.neg, fun h => ?_, fun h => ?_⟩
    · rw [hrounded, hplain h]
      rfl
    · rw [hrounded, hslip h, if_pos rfl, if_pos rfl, if_pos (neg_neg_of_pos hv'), neg_add,
        sub_eq_add_neg]
  | false =>
    refine ⟨_, haway, fun h => ?_, fun h => ?_⟩
    · rw [hrounded, hplain h]
      rfl
    · rw [hrounded, hslip h]
      show _ = Except.ok (if dyadic mantissa exponent < 0 then _ else _)
      rw [if_neg (not_lt.mpr hv)]
      rfl

end Pseudocode.Numeral

namespace Pseudocode

open Numeral

/-- A magnitude of at least `2 ^ 52` has no integer of 32 bits next to it. -/
theorem isInt32_large {v : ℚ} {n : Int} (hv : 2 ^ 52 ≤ |v|) (hn : |v - n| ≤ 3 / 2) :
    isInt32 n = false := by
  have habs : 2 ^ 52 - 3 / 2 ≤ |(n : ℚ)| := by
    have := abs_sub_abs_le_abs_sub v n
    linarith
  have hlarge : (2 : ℤ) ^ 51 < |n| := by
    have : (2 : ℚ) ^ 51 < |(n : ℚ)| := by linarith
    exact_mod_cast this
  unfold isInt32
  rw [Bool.and_eq_false_iff, decide_eq_false_iff_not, decide_eq_false_iff_not]
  show ¬ (-2 ^ 31 : Int) ≤ n ∨ ¬ n ≤ 2 ^ 31 - 1
  obtain h | h := lt_abs.mp hlarge
  · right
    omega
  · left
    omega

/-- A real that is rounded becomes an integer, if that has 32 bits. -/
theorem Scalar.toInteger_real {x : Float} {n : Int} (h : roundHalfAway x = .ok n) :
    (Scalar.real x).toInteger =
      if isInt32 n then .ok n
      else .error ((Scalar.real x).failure (.kind (.scalar .integer)) (.realOutOfRange x)) := by
  unfold Scalar.toInteger
  dsimp only
  rw [h]

/-- A finite real is rounded to the integer next to it, halves going away from zero, but
for the reals that slip: they are rounded to the integer behind.  As an integer it is read
just if the integer next to it has 32 bits, and then it is that integer, but for the two
reals that slip below one half. -/
theorem reals_rounded {x : Float} {v : ℚ} (hx : (Binary64.ofFloat x).rational? = some v) :
    ∃ n, HalfAway v n ∧ (∀ n', HalfAway v n' → n' = n) ∧
      (¬ Binary64.Slips |v| → roundHalfAway x = .ok n) ∧
      (Binary64.Slips |v| → roundHalfAway x = .ok (if v < 0 then n - 1 else n + 1)) ∧
      (|v| ≠ 1 / 2 - 1 / 2 ^ 54 → (Scalar.real x).toInteger =
        if isInt32 n then .ok n
        else .error ((Scalar.real x).failure (.kind (.scalar .integer)) (.realOutOfRange x))) := by
  obtain ⟨n, hn, hplain, hslips⟩ := roundHalfAway_spec hx
  refine ⟨n, hn, fun n' hn' => hn'.unique hn, hplain, hslips, fun hne => ?_⟩
  by_cases h : Binary64.Slips |v|
  · have hlarge := (h.resolve_left hne).1
    have hnone := isInt32_large hlarge (hn.half.trans (by norm_num))
    have hnone' : isInt32 (if v < 0 then n - 1 else n + 1) = false := by
      refine isInt32_large hlarge ?_
      have hstep : |(n : ℚ) - ((if v < 0 then n - 1 else n + 1 : Int) : ℚ)| = 1 := by
        split <;> push_cast <;> norm_num
      have := abs_sub_le v n ((if v < 0 then n - 1 else n + 1 : Int) : ℚ)
      linarith [hn.half]
    rw [Scalar.toInteger_real (hslips h), hnone, hnone']
    rfl
  · exact Scalar.toInteger_real (hplain h)

/-- A half goes away from zero. -/
theorem reals_rounded_half : (Binary64.ofFloat (-2.5)).rational? = some (-5 / 2) ∧
    roundHalfAway (-2.5) = .ok (-3) ∧ (Scalar.real (-2.5)).toInteger = .ok (-3) := by
  have hparts : Binary64.ofFloat (-2.5) = .finite true (5 * 2 ^ 50) (-51) := by decide +kernel
  have hx : (Binary64.ofFloat (-2.5)).rational? = some (-5 / 2) := by
    rw [hparts]
    show some (-Binary64.dyadic (5 * 2 ^ 50) (-51)) = _
    unfold Binary64.dyadic
    norm_num
  have habs : |(-5 / 2 : ℚ)| = 5 / 2 := by norm_num [abs_of_neg]
  have haway : HalfAway (-5 / 2) (-3) := by
    refine .inr ⟨?_, ?_⟩ <;> norm_num [abs_of_pos, abs_of_neg]
  have hplain : ¬ Binary64.Slips |(-5 / 2 : ℚ)| := by
    rw [habs]
    rintro (h | ⟨h, -⟩) <;> norm_num at h
  obtain ⟨n, -, hunique, hrounded, -, hinteger⟩ := reals_rounded hx
  obtain rfl := hunique _ haway
  refine ⟨hx, hrounded hplain, (hinteger fun h => hplain (.inl h)).trans ?_⟩
  rfl

/-- The greatest real below one half is next to zero, but the sum with one half is one. -/
theorem rounded_too_far :
    (Binary64.ofFloat 0.49999999999999994).rational? = some (1 / 2 - 1 / 2 ^ 54) ∧
      HalfAway (1 / 2 - 1 / 2 ^ 54) 0 ∧ ¬ HalfAway (1 / 2 - 1 / 2 ^ 54) 1 ∧
      roundHalfAway 0.49999999999999994 = .ok 1 ∧
      (Scalar.real 0.49999999999999994).toInteger = .ok 1 := by
  have hparts : Binary64.ofFloat 0.49999999999999994 = .finite false (2 ^ 53 - 1) (-54) := by
    decide +kernel
  have hrounded : roundHalfAway 0.49999999999999994 = .ok 1 := by decide +kernel
  refine ⟨?_, .inl ?_, ?_, hrounded, Scalar.toInteger_real hrounded⟩
  · rw [hparts]
    show some (Binary64.dyadic (2 ^ 53 - 1) (-54)) = _
    unfold Binary64.dyadic
    norm_num
  · norm_num [abs_of_pos]
  · rintro (h | ⟨h, -⟩) <;> norm_num [abs_of_neg] at h

end Pseudocode
