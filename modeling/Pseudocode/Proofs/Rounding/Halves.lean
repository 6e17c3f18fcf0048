import Mathlib.Data.Rat.Floor
import Pseudocode.Proofs.Rounding.Nearest

/-!
# Sums with one half

A sum of two reals is the exact sum rounded to the nearest real.  For a real and a half on
the same side of zero this is `moved_spec`, and the question is whether the sum has the
whole part that the exact sum has.

It does if the exact sum is a real, and otherwise the sum still lies between any two reals
that the exact sum lies between.  Up to `2 ^ 52` that settles it but for the greatest
magnitude below one half, whose exact sum is midway between one and the real before.  From
`2 ^ 52` on, where reals are whole, the exact sum is always midway or nearer to where it
came from, so that only odd magnitudes move (`sum_large`).  The two exceptions are `Slips`,
and the result is `floor_sum`.
-/

namespace Pseudocode.Numeral

open Float.Model Float.Model.UnpackedFloat

namespace Binary64

/-! ## The sum -/

/-- One half has a leading bit and nothing behind it. -/
theorem ofFloat_half : ofFloat 0.5 = .finite false (2 ^ 52) (-53) := by decide +kernel

/-- Its value is one half. -/
theorem dyadic_half : dyadic (2 ^ 52) (-53) = 1 / 2 := by
  unfold dyadic
  norm_num

/-- To normalize a magnitude that is not zero is to round it. -/
theorem normalize_apply (sign zero : Sign) {mantissa : Nat} (h : 0 < mantissa)
    (exponent : Int) :
    UnpackedFloat.normalize Format.binary64 (sign.apply mantissa) exponent zero =
      UnpackedFloat.round Format.binary64 sign mantissa exponent := by
  unfold UnpackedFloat.normalize
  cases sign with
  | negative =>
    have hlt : compare (Sign.negative.apply mantissa) 0 = .lt :=
      Int.compare_eq_lt.mpr (show -(mantissa : Int) < 0 by omega)
    rw [hlt]
    show UnpackedFloat.round _ _ (- -(mantissa : Int)).toNat _ = _
    rw [Int.neg_neg, Int.toNat_natCast]
  | positive =>
    have hgt : compare (Sign.positive.apply mantissa) 0 = .gt :=
      Int.compare_eq_gt.mpr (show (0 : Int) < mantissa by omega)
    rw [hgt]
    rfl

/-- A magnitude aligned with a half, and the half. -/
def withHalf (mantissa : Nat) (exponent : Int) : Nat :=
  mantissa <<< (exponent - min exponent (-53)).toNat +
    2 ^ 52 <<< (-53 - min exponent (-53)).toNat

/-- The mantissas are brought to one exponent and added: this is the exact sum. -/
theorem dyadic_withHalf (mantissa : Nat) (exponent : Int) :
    dyadic (withHalf mantissa exponent) (min exponent (-53)) =
      dyadic mantissa exponent + 1 / 2 := by
  have halign : ∀ (m : Nat) (e t : Int), t ≤ e →
      dyadic (m <<< (e - t).toNat) t = dyadic m e := by
    intro m e t ht
    rw [Nat.shiftLeft_eq, ← dyadic_shift m (e - t).toNat e]
    congr 1
    omega
  unfold withHalf
  rw [dyadic_add, halign _ _ _ (min_le_left ..), halign _ _ _ (min_le_right ..), dyadic_half]

/-- The sum with one half is not zero. -/
theorem withHalf_pos (mantissa : Nat) (exponent : Int) : 0 < withHalf mantissa exponent := by
  unfold withHalf
  rw [Nat.shiftLeft_eq, Nat.shiftLeft_eq]
  positivity

/-- Moving a number away from zero by a half rounds its magnitude and the half. -/
theorem add_half (negative : Bool) {mantissa : Nat} (h : 0 < mantissa) (exponent : Int)
    (h' : 0 < 2 ^ 52) :
    (if negative then
        UnpackedFloat.sub Format.binary64 (.finite (signOf negative) mantissa exponent h)
          (.finite .positive (2 ^ 52) (-53) h')
      else
        UnpackedFloat.add Format.binary64 (.finite (signOf negative) mantissa exponent h)
          (.finite .positive (2 ^ 52) (-53) h')) =
      UnpackedFloat.round Format.binary64 (signOf negative) (withHalf mantissa exponent)
        (min exponent (-53)) := by
  rw [← normalize_apply _ .positive (withHalf_pos mantissa exponent)]
  unfold withHalf
  cases negative with
  | true =>
    show UnpackedFloat.normalize _ (-((_ : Nat) : Int) - ((_ : Nat) : Int)) _ _ =
      UnpackedFloat.normalize _ (-((_ + _ : Nat) : Int)) _ _
    rw [Int.natCast_add, Int.neg_add, Int.sub_eq_add_neg]
  | false => rfl

/-- Arithmetic finds the parts of a real that is not zero. -/
theorem unpack_finite {x : Float} {negative : Bool} {mantissa : Nat} {exponent : Int}
    (hx : ofFloat x = .finite negative mantissa exponent) (h : 0 < mantissa) :
    x.toModel.unpack = .finite (signOf negative) mantissa exponent h := by
  rw [unpack_eq, hx]
  exact dif_neg h.ne'

/-- It finds a zero to be one. -/
theorem unpack_finite_zero {x : Float} {negative : Bool} {exponent : Int}
    (hx : ofFloat x = .finite negative 0 exponent) :
    x.toModel.unpack = .zero (signOf negative) := by
  rw [unpack_eq, hx]
  rfl

/-- It finds one half to be one half. -/
theorem unpack_half : ∃ h, (0.5 : Float).toModel.unpack = .finite .positive (2 ^ 52) (-53) h := by
  refine ⟨by decide, ?_⟩
  rw [unpack_eq, ofFloat_half]
  rfl

/-- The sum that a real is cut from. -/
def moved (x : Float) (negative : Bool) : Float := if negative then x - 0.5 else x + 0.5

/-- The sum of a real and a half of the same sign is the real nearest to the exact sum. -/
theorem moved_spec {x : Float} {negative : Bool} {mantissa : Nat} {exponent : Int}
    (hx : ofFloat x = .finite negative mantissa exponent) (h : 0 < mantissa) :
    ∃ m e, ofFloat (moved x negative) = .finite negative m e ∧ Shape m e ∧ 2 ^ 52 ≤ m ∧
      Nearest (dyadic mantissa exponent + 1 / 2) m e := by
  have hshape := shape_of_finite hx
  obtain ⟨hhalf, hunpack⟩ := unpack_half
  have hvalue := dyadic_withHalf mantissa exponent
  have hnonneg := dyadic_nonneg mantissa exponent
  have hleast : -1022 ≤ (withHalf mantissa exponent).log2 + min exponent (-53) := by
    have hlarge : (2 : ℚ) ^ (-1 : Int) ≤ dyadic (withHalf mantissa exponent)
        (min exponent (-53)) := by
      rw [hvalue]
      norm_num
      exact hnonneg
    have := lt_exponent Nat.lt_log2_self hlarge
    push_cast at this
    omega
  obtain ⟨m, e, hm, hround, hlow, hhigh, he, hnearest⟩ :=
    round_spec (signOf negative) (withHalf_pos mantissa exponent) hleast
  rw [hvalue] at hnearest
  have hmost : e ≤ 971 := by
    have hnear := hnearest.nearest mantissa exponent hshape.below
    have habs : |(1 / 2 : ℚ)| = 1 / 2 := abs_of_nonneg (by norm_num)
    rw [sub_add_cancel_left, abs_neg, habs] at hnear
    have hle : dyadic m e ≤ dyadic mantissa exponent + 1 := by linarith [(abs_le.mp hnear).2]
    have := exponent_lt hlow (hle.trans_lt hshape.add_one_lt)
    omega
  have hshape' : Shape m e := ⟨hhigh, .inl hlow, he, hmost⟩
  refine ⟨m, e, ?_, hshape', hlow, hnearest⟩
  have hmoved : moved x negative = .ofModel (.pack (.finite (signOf negative) m e hm)) := by
    rw [← hround, ← add_half negative h exponent hhalf, ← unpack_finite hx h, ← hunpack]
    unfold moved
    cases negative <;> rfl
  rw [hmoved, ofFloat_pack hm hlow hshape']

/-! ## The whole part of the sum -/

/-- The magnitudes that a half is added to in vain: the sum with the half lies midway
between two reals, and the even one is a whole number too far. -/
def Slips (v : ℚ) : Prop :=
  v = 1 / 2 - 1 / 2 ^ 54 ∨ 2 ^ 52 ≤ v ∧ v < 2 ^ 53 ∧ ∃ k : Nat, v = 2 * k + 1

/-- A number between a whole one and the next has that whole part. -/
theorem floor_eq_natCast {x : ℚ} {n : Nat} (h : n ≤ x) (h' : x < n + 1) : ⌊x⌋ = n :=
  Int.floor_eq_iff.mpr ⟨by exact_mod_cast h, by exact_mod_cast h'⟩

section Halves

variable {m n : Nat} {e f : Int}

/-- A magnitude below a half that does not slip is at least two steps below. -/
theorem below_half (hm : m < 2 ^ 53) (hv : dyadic m e < 1 / 2)
    (hslip : dyadic m e ≠ 1 / 2 - 1 / 2 ^ 54) : dyadic m e ≤ 1 / 2 - 1 / 2 ^ 53 := by
  have hstep : (2 : ℚ) ^ (-54 : Int) = 1 / 2 ^ 54 := by norm_num
  obtain ⟨y, hy, hy'⟩ := dyadic_steps hm e (-54)
  rw [hstep] at hy
  rw [hy] at hv hslip ⊢
  obtain ⟨j, rfl⟩ | hlt := hy'
  · have hlt : (j : ℚ) < 2 ^ 53 := by linarith
    have hlt' : j < 2 ^ 53 := by exact_mod_cast hlt
    have hne : j ≠ 2 ^ 53 - 1 := by
      rintro rfl
      exact hslip (by norm_num)
    have hj : (j : ℚ) + 2 ≤ 2 ^ 53 := by exact_mod_cast (show j + 2 ≤ 2 ^ 53 by omega)
    linarith
  · linarith

/-- Below one half, and not just below, the sum stays below one. -/
theorem floor_small (hn : Nearest (dyadic m e + 1 / 2) n f) (hm : m < 2 ^ 53)
    (hv : dyadic m e < 1 / 2) (hslip : dyadic m e ≠ 1 / 2 - 1 / 2 ^ 54) :
    ⌊dyadic n f⌋ = ⌊dyadic m e + 1 / 2⌋ := by
  have hnonneg := dyadic_nonneg m e
  have hgap := below_half hm hv hslip
  have hlow : dyadic (2 ^ 52) (-53) ≤ dyadic n f :=
    hn.ge (by norm_num) (by rw [dyadic_half]; linarith)
  have htop : dyadic (2 ^ 53 - 1) (-53) = 1 - 1 / 2 ^ 53 := by
    unfold dyadic
    norm_num
  have hhigh : dyadic n f ≤ dyadic (2 ^ 53 - 1) (-53) :=
    hn.le (by norm_num) (by rw [htop]; linarith)
  rw [dyadic_half] at hlow
  rw [htop] at hhigh
  have hless : (1 : ℚ) - 1 / 2 ^ 53 < 1 := by norm_num
  rw [Int.floor_eq_zero_iff.mpr ⟨by linarith, by linarith⟩,
    Int.floor_eq_zero_iff.mpr ⟨by linarith, by linarith⟩]

/-- Where the sum with a half has a digit too many it is less than a half above a power
of two, and does not come to the next whole number. -/
theorem floor_carry (hn : Nearest (dyadic m e + 1 / 2) n f) (hm : m < 2 ^ 53) {k : Nat}
    (hk : k ≤ 52) (he : e = -1 - k) (hdigits : 2 ^ 53 ≤ m + 2 ^ k)
    (hsum : dyadic (m + 2 ^ k) e = dyadic m e + 1 / 2) :
    ⌊dyadic n f⌋ = ⌊dyadic m e + 1 / 2⌋ := by
  have hpower : ((2 ^ (52 - k) : Nat) : ℚ) = 2 ^ 53 * 2 ^ e := by
    rw [Nat.cast_pow, Nat.cast_ofNat, ← zpow_natCast, ← zpow_natCast,
      ← zpow_add₀ two_ne_zero, he]
    congr 1
    omega
  have hfits : 2 ^ (52 - k) < 2 ^ 53 := Nat.pow_lt_pow_right (by omega) (by omega)
  have hbelow : dyadic m e < (2 ^ (52 - k) : Nat) := by
    rw [hpower]
    exact mul_lt_mul_of_pos_right (by exact_mod_cast hm) (two_zpow_pos e)
  have habove : ((2 ^ (52 - k) : Nat) : ℚ) ≤ dyadic m e + 1 / 2 := by
    rw [hpower, ← hsum]
    exact mul_le_mul_of_nonneg_right (by exact_mod_cast hdigits) (two_zpow_pos e).le
  have hlow : ((2 ^ (52 - k) : Nat) : ℚ) ≤ dyadic n f := by
    rw [← dyadic_zero]
    exact hn.ge hfits (by rw [dyadic_zero]; exact habove)
  have hhigh : dyadic n f < (2 ^ (52 - k) : Nat) + 1 := by
    obtain rfl | hk := Nat.eq_zero_or_pos k
    · -- the sum is the power of two
      have hm : m + 2 ^ 0 = 2 ^ 53 := by omega
      have hexact : dyadic (2 ^ (52 - 0)) 0 = dyadic m e + 1 / 2 := by
        rw [dyadic_zero, hpower, ← hsum, hm]
        unfold dyadic
        push_cast
        rfl
      rw [hn.eq hfits hexact, ← hexact, dyadic_zero]
      exact lt_add_one _
    · have hnext : dyadic (2 * 2 ^ (52 - k) + 1) (-1) = (2 ^ (52 - k) : Nat) + 1 / 2 := by
        unfold dyadic
        push_cast
        rw [zpow_neg_one]
        ring
      have hfits' : 2 * 2 ^ (52 - k) + 1 < 2 ^ 53 := by
        have := Nat.pow_le_pow_right (show 0 < 2 by omega) (show 52 - k ≤ 51 by omega)
        omega
      have := hn.le hfits' (by rw [hnext]; linarith)
      rw [hnext] at this
      linarith
  rw [floor_eq_natCast hlow hhigh, floor_eq_natCast habove (by linarith)]

/-- From a half up to `2 ^ 52` the half is a power of two in steps of the last digit. -/
theorem floor_medium (hn : Nearest (dyadic m e + 1 / 2) n f) (hlow : 2 ^ 52 ≤ m)
    (hm : m < 2 ^ 53) (hv : 1 / 2 ≤ dyadic m e) (hv' : dyadic m e < 2 ^ 52) :
    ⌊dyadic n f⌋ = ⌊dyadic m e + 1 / 2⌋ := by
  have he : e < 0 := by
    have := exponent_lt (k := 52) hlow (by exact_mod_cast hv')
    omega
  have he' : -54 < e := by
    have hhalf : (2 : ℚ) ^ (-1 : Int) ≤ dyadic m e := by norm_num [hv]
    have := lt_exponent hm hhalf
    omega
  obtain ⟨k, hk⟩ : ∃ k : Nat, e = -1 - k := ⟨(-1 - e).toNat, by omega⟩
  have hhalf : dyadic (2 ^ k) e = 1 / 2 := by
    unfold dyadic
    rw [hk, Nat.cast_pow, Nat.cast_ofNat, ← zpow_natCast, ← zpow_add₀ two_ne_zero,
      add_sub_cancel]
    norm_num
  have hsum : dyadic (m + 2 ^ k) e = dyadic m e + 1 / 2 := by rw [dyadic_add, hhalf]
  by_cases hdigits : m + 2 ^ k < 2 ^ 53
  · rw [hn.eq hdigits hsum]
  · exact floor_carry hn hm (by omega) hk (Nat.le_of_not_lt hdigits) hsum

/-- A real of 53 digits that is at least `2 ^ 52` is whole, and odd only if it is its own
mantissa. -/
theorem exists_nat (hm : m < 2 ^ 53) (hv : 2 ^ 52 ≤ dyadic m e) :
    ∃ w : Nat, dyadic m e = w ∧ (w % 2 = 1 → w = m) := by
  have he : 0 ≤ e := by
    have hv' : (2 : ℚ) ^ (52 : Int) ≤ dyadic m e := by exact_mod_cast hv
    have := lt_exponent hm hv'
    omega
  obtain ⟨k, rfl⟩ := Int.eq_ofNat_of_zero_le he
  refine ⟨m * 2 ^ k, ?_, fun hodd => ?_⟩
  · unfold dyadic
    push_cast
    rw [zpow_natCast]
  · cases k with
    | zero => rw [Nat.pow_zero, Nat.mul_one]
    | succ k =>
      rw [Nat.pow_succ, ← Nat.mul_assoc, Nat.mul_mod_left] at hodd
      cases hodd

/-- From `2 ^ 52` on the exact sum is midway between two whole numbers, and the even one
is taken. -/
theorem sum_large (hn : Nearest (dyadic m e + 1 / 2) n f) (hm : m < 2 ^ 53)
    (hdigits : n < 2 ^ 53) {w : Nat} (hw : dyadic m e = w) (hodd : w % 2 = 1 → w = m)
    (hv : 2 ^ 52 ≤ w) : dyadic n f = (w + w % 2 : Nat) := by
  have hv' : (2 : ℚ) ^ 52 ≤ w := by exact_mod_cast hv
  have hhalf : |(w : ℚ) - (w + 1 / 2)| = 1 / 2 := by
    rw [sub_add_cancel_left, abs_neg, abs_of_pos (by norm_num)]
  have hhalf' : |(w : ℚ) + 1 - (w + 1 / 2)| = 1 / 2 := by
    rw [add_sub_add_left_eq_sub]
    norm_num [abs_of_pos]
  have hnear := hn.nearest m e hm
  rw [hw, hhalf] at hnear
  obtain ⟨hlow, hhigh⟩ := abs_le.mp hnear
  obtain ⟨y, hy, hyodd⟩ := exists_nat hdigits (e := f) (by linarith)
  have hcases : y = w ∨ y = w + 1 := by
    have hle : (w : ℚ) ≤ y := by linarith
    have hle' : (y : ℚ) ≤ w + 1 := by linarith
    have hle : w ≤ y := by exact_mod_cast hle
    have hle' : y ≤ w + 1 := by exact_mod_cast hle'
    omega
  rw [hy, Nat.cast_inj]
  obtain rfl | rfl := hcases
  · -- an odd number itself is not taken: the next one is as near
    by_contra hne
    have hyodd' : y % 2 = 1 := by omega
    have hnext : dyadic ((y + 1) / 2) 1 = y + 1 := by
      have : (y + 1) / 2 * 2 = y + 1 := by omega
      unfold dyadic
      rw [zpow_one]
      exact_mod_cast this
    have heven := hn.even ((y + 1) / 2) 1 (by have := hodd hyodd'; omega)
      (by rw [hnext, hy]; exact (lt_add_one _).ne') (by rw [hnext, hy, hw, hhalf, hhalf'])
    have := hyodd hyodd'
    omega
  · by_contra hne
    have hyodd' : (w + 1) % 2 = 1 := by omega
    have heven := hn.even m e hm (by rw [hw, hy]; push_cast; exact (lt_add_one _).ne)
      (by rw [hw, hy, hhalf, Nat.cast_add, Nat.cast_one, hhalf'])
    have := hyodd hyodd'
    omega

/-- The magnitude just below a half goes to one. -/
theorem sum_below_half (hn : Nearest (dyadic m e + 1 / 2) n f) (hlow : 2 ^ 52 ≤ n)
    (hdigits : n < 2 ^ 53) (hv : dyadic m e = 1 / 2 - 1 / 2 ^ 54) : dyadic n f = 1 := by
  have hone := dyadic_zero 1
  rw [Nat.cast_one] at hone
  have hprevious : dyadic (2 ^ 53 - 1) (-53) = 1 - 1 / 2 ^ 53 := by
    unfold dyadic
    norm_num
  rw [hv] at hn
  have hge : dyadic (2 ^ 53 - 1) (-53) ≤ dyadic n f :=
    hn.ge (by norm_num) (by rw [hprevious]; norm_num)
  have hle : dyadic n f ≤ dyadic 1 0 := hn.le (by norm_num) (by rw [hone]; norm_num)
  rw [hone] at hle
  by_contra hne
  have hf : f = -53 := by
    have hless : dyadic n f < 2 ^ (0 : Int) := by
      rw [zpow_zero]
      exact lt_of_le_of_ne hle hne
    have hmore : (2 : ℚ) ^ (-1 : Int) ≤ dyadic n f :=
      le_trans (by rw [hprevious]; norm_num) hge
    have := exponent_lt hlow hless
    have := lt_exponent hdigits hmore
    omega
  subst hf
  have hn' : 2 ^ 53 - 1 ≤ n := by
    unfold dyadic at hge
    have := (mul_le_mul_iff_left₀ (two_zpow_pos (-53))).mp hge
    exact_mod_cast this
  obtain rfl : n = 2 ^ 53 - 1 := by omega
  have heven := hn.even 1 0 (by norm_num) (by rw [hone]; exact Ne.symm hne)
    (by rw [hone, hprevious]; norm_num [abs_of_pos, abs_of_neg])
  omega

/-- From `2 ^ 52` on the number is whole, and its sum goes to the next even number. -/
theorem floor_large (hn : Nearest (dyadic m e + 1 / 2) n f) (hm : m < 2 ^ 53)
    (hdigits : n < 2 ^ 53) (hv : 2 ^ 52 ≤ dyadic m e) :
    ∃ w : Nat, dyadic m e = w ∧ (w % 2 = 1 → w = m) ∧ ⌊dyadic m e + 1 / 2⌋ = w ∧
      ⌊dyadic n f⌋ = (w + w % 2 : Nat) := by
  obtain ⟨w, hw, hodd⟩ := exists_nat hm hv
  have hw' : 2 ^ 52 ≤ w := by
    rw [hw] at hv
    exact_mod_cast hv
  refine ⟨w, hw, hodd, ?_, ?_⟩
  · rw [hw]
    exact floor_eq_natCast (by linarith) (by linarith)
  · rw [sum_large hn hm hdigits hw hodd hw', Int.floor_natCast]

/-- From `2 ^ 52` on the odd whole numbers slip. -/
theorem slips_iff_odd (hm : m < 2 ^ 53) (hv : 2 ^ 52 ≤ dyadic m e) {w : Nat}
    (hw : dyadic m e = w) (hodd : w % 2 = 1 → w = m) : Slips (dyadic m e) ↔ w % 2 = 1 := by
  constructor
  · rintro (hslips | ⟨-, -, k, hk⟩)
    · rw [hslips] at hv
      norm_num at hv
    · have hwk : w = 2 * k + 1 := by
        rw [hw] at hk
        exact_mod_cast hk
      omega
  · intro hone
    have hw' : w < 2 ^ 53 := by
      have := hodd hone
      omega
    refine .inr ⟨hv, ?_, w / 2, ?_⟩
    · rw [hw]
      exact_mod_cast hw'
    · rw [hw]
      exact_mod_cast (show w = 2 * (w / 2) + 1 by omega)

/-- The sum with a half has the whole part that the exact sum has, but where the magnitude
slips it is one more. -/
theorem floor_sum (hn : Nearest (dyadic m e + 1 / 2) n f) (hshape : Shape m e)
    (hlow : 2 ^ 52 ≤ n) (hdigits : n < 2 ^ 53) :
    (¬ Slips (dyadic m e) → ⌊dyadic n f⌋ = ⌊dyadic m e + 1 / 2⌋) ∧
      (Slips (dyadic m e) → ⌊dyadic n f⌋ = ⌊dyadic m e + 1 / 2⌋ + 1) := by
  have hm := hshape.below
  by_cases hsmall : dyadic m e < 1 / 2
  · refine ⟨fun hslips => floor_small hn hm hsmall fun h => hslips (.inl h), fun hslips => ?_⟩
    obtain hslips | ⟨hlarge, -, -⟩ := hslips
    · rw [sum_below_half hn hlow hdigits hslips, hslips]
      norm_num
    · linarith
  by_cases hmedium : dyadic m e < 2 ^ 52
  · have hleading : 2 ^ 52 ≤ m := by
      by_contra hlt
      have hv : (2 : ℚ) ^ (-1 : Int) ≤ dyadic m e := by
        norm_num at hsmall ⊢
        exact hsmall
      have := lt_exponent (Nat.lt_of_not_le hlt) hv
      have := hshape.leading.resolve_left hlt
      omega
    refine ⟨fun _ => floor_medium hn hleading hm (le_of_not_gt hsmall) hmedium, fun hslips => ?_⟩
    obtain hslips | ⟨hlarge, -, -⟩ := hslips
    · rw [hslips] at hsmall
      norm_num at hsmall
    · linarith
  · have hlarge := le_of_not_gt hmedium
    obtain ⟨w, hw, hodd, hexact, hsum⟩ := floor_large hn hm hdigits hlarge
    rw [hexact, hsum, slips_iff_odd hm hlarge hw hodd]
    refine ⟨fun heven => ?_, fun hone => ?_⟩
    · have heven : w % 2 = 0 := by omega
      rw [heven]
      rfl
    · rw [hone]
      rfl

end Halves

end Binary64

end Pseudocode.Numeral
