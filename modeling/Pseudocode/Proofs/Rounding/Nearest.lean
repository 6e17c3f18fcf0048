import Mathlib.Algebra.Order.Field.Power
import Mathlib.Tactic.FieldSimp
import Mathlib.Tactic.Linarith
import Mathlib.Tactic.Positivity
import Pseudocode.Proofs.Rounding.Parts

/-!
# Rounding to the nearest real

Arithmetic gets its results by computing exactly, in whole numbers, and rounding then: it
shifts the mantissa to the right until 53 digits are left, keeps of what falls off the
first bit and whether there is more behind, and so decides which way to round.  `Cut` is
what is known after any number of shifts, and `Cut.near` that the decision is for the
nearest whole number, of two such the even one.

In steps of its last digit a rounded number is this whole number, so that it is nearest
among the numbers that are whole in these steps.  All others of 53 digits are smaller than
the least with a leading bit, which is whole (`Near.nearest`).  The result is `round_spec`.
It tells of a rounded sum all that is used of it later, and no later proof goes back to
the shifts.
-/

namespace Pseudocode.Numeral

open Float.Model Float.Model.UnpackedFloat

namespace Binary64

/-! ## Magnitudes -/

/-- The exact value of a magnitude. -/
def dyadic (mantissa : Nat) (exponent : Int) : ℚ := mantissa * 2 ^ exponent

/-- Powers of two are positive. -/
theorem two_zpow_pos (exponent : Int) : (0 : ℚ) < 2 ^ exponent :=
  zpow_pos (by norm_num) exponent

/-- A magnitude without an exponent is its mantissa. -/
theorem dyadic_zero (m : Nat) : dyadic m 0 = m := by
  unfold dyadic
  rw [zpow_zero, mul_one]

/-- Magnitudes of one exponent are added by their mantissas. -/
theorem dyadic_add (m m' : Nat) (e : Int) : dyadic (m + m') e = dyadic m e + dyadic m' e := by
  unfold dyadic
  push_cast
  ring

/-- Shifting a mantissa to the left is paid for by the exponent. -/
theorem dyadic_shift (mantissa shift : Nat) (exponent : Int) :
    dyadic (mantissa * 2 ^ shift) (exponent - shift) = dyadic mantissa exponent := by
  unfold dyadic
  rw [zpow_sub₀ (by norm_num), zpow_natCast]
  push_cast
  field_simp

section Bounds

variable {m : Nat} {e k : Int}

/-- A magnitude with a leading bit that is below a power of two has an exponent well
below. -/
theorem exponent_lt (hm : 2 ^ 52 ≤ m) (h : dyadic m e < 2 ^ k) : e < k - 52 := by
  have hm' : (2 : ℚ) ^ (52 : Int) ≤ m := by exact_mod_cast hm
  have hlt : (2 : ℚ) ^ (52 + e) < 2 ^ k := by
    rw [zpow_add₀ (by norm_num)]
    exact (mul_le_mul_of_nonneg_right hm' (two_zpow_pos e).le).trans_lt h
  have := (zpow_lt_zpow_iff_right₀ (by norm_num)).mp hlt
  omega

/-- A magnitude of so many digits that reaches a power of two has an exponent well above. -/
theorem lt_exponent {digits : Nat} (hm : m < 2 ^ digits) (h : 2 ^ k ≤ dyadic m e) :
    k - digits < e := by
  have hm' : (m : ℚ) < 2 ^ (digits : Int) := by
    rw [zpow_natCast]
    exact_mod_cast hm
  have hlt : (2 : ℚ) ^ k < 2 ^ (digits + e) := by
    rw [zpow_add₀ (by norm_num)]
    exact h.trans_lt (mul_lt_mul_of_pos_right hm' (two_zpow_pos e))
  have := (zpow_lt_zpow_iff_right₀ (by norm_num)).mp hlt
  omega

end Bounds

/-- Magnitudes are not negative. -/
theorem dyadic_nonneg (m : Nat) (e : Int) : 0 ≤ dyadic m e :=
  mul_nonneg (Nat.cast_nonneg m) (two_zpow_pos e).le

/-- One more than the magnitude of a real is still below the least power of two that is
too large for a real. -/
theorem Shape.add_one_lt {m : Nat} {e : Int} (h : Shape m e) :
    dyadic m e + 1 < 2 ^ (1024 : Int) := by
  have hm : (m : ℚ) ≤ 2 ^ 53 - 1 := by
    have : (m : ℚ) + 1 ≤ 2 ^ 53 := by exact_mod_cast h.below
    linarith
  have he : (2 : ℚ) ^ e ≤ 2 ^ (971 : Int) := zpow_le_zpow_right₀ (by norm_num) h.most
  have hle : dyadic m e ≤ (2 ^ 53 - 1) * 2 ^ (971 : Int) :=
    mul_le_mul hm he (two_zpow_pos e).le (by norm_num)
  have hpower : (2 : ℚ) ^ (1024 : Int) = 2 ^ 53 * 2 ^ (971 : Int) := by
    rw [← zpow_natCast, ← zpow_add₀ (by norm_num)]
    norm_num
  have hone : (1 : ℚ) < 2 ^ (971 : Int) := one_lt_zpow₀ (by norm_num) (by norm_num)
  rw [hpower]
  generalize (2 : ℚ) ^ (971 : Int) = top at hle hone ⊢
  linarith

/-! ## Shifting -/

/-- What is kept of a mantissa that is shifted to the right: its upper bits, the bit
below these, and whether there is a rest behind. -/
structure Cut (mantissa shift : Nat) (em : ExtendedMantissa) (rest : Nat) : Prop where
  below : rest < 2 ^ shift
  value : 2 * mantissa = (2 * em.mantissa + em.roundBit.toNat) * 2 ^ shift + rest
  sticky : em.stickyBit = true ↔ rest ≠ 0

/-- One more shift to the right: what was the round bit joins what is behind it. -/
theorem Cut.step {mantissa shift : Nat} {em : ExtendedMantissa} {rest : Nat}
    (h : Cut mantissa shift em rest) :
    Cut mantissa (shift + 1) em.shiftRightOne (em.roundBit.toNat * 2 ^ shift + rest) := by
  obtain ⟨kept, bit, sticky⟩ := em
  obtain ⟨hbelow, hvalue, hsticky⟩ := h
  have hpos : 0 < 2 ^ shift := Nat.two_pow_pos shift
  have hbit : (kept % 2 != 0).toNat = kept % 2 := by
    obtain h | h := Nat.mod_two_eq_zero_or_one kept <;> rw [h] <;> rfl
  have hkept : kept = 2 * (kept / 2) + kept % 2 := (Nat.div_add_mod kept 2).symm
  refine ⟨?_, ?_, ?_⟩
  · rw [Nat.pow_succ]
    cases bit <;> simp <;> omega
  · show 2 * mantissa = (2 * (kept / 2) + (kept % 2 != 0).toNat) * 2 ^ (shift + 1) + _
    rw [hbit, ← hkept, hvalue, Nat.pow_succ]
    ring
  · show (bit || sticky) = true ↔ _
    cases bit with
    | true => simp
    | false => simpa using hsticky

/-- So it is after any number of shifts. -/
theorem cut_shift (mantissa shift : Nat) :
    ∃ rest, Cut mantissa shift ((⟨mantissa, false, false⟩ : ExtendedMantissa) >>> shift)
      rest := by
  induction shift with
  | zero => exact ⟨0, Nat.one_pos, (Nat.mul_one _).symm, Iff.intro nofun fun h => absurd rfl h⟩
  | succ shift ih =>
    obtain ⟨rest, hcut⟩ := ih
    exact ⟨_, hcut.step⟩

/-- The whole number next to a fraction, of two such the even one. -/
structure Near (x : ℚ) (n : Nat) : Prop where
  half : |(n : ℚ) - x| ≤ 1 / 2
  even : |(n : ℚ) - x| = 1 / 2 → n % 2 = 0

/-- The round bit, and whether there is more behind it, tell which whole number is
nearest. -/
theorem Cut.near {mantissa shift : Nat} {em : ExtendedMantissa} {rest : Nat}
    (h : Cut mantissa shift em rest) :
    Near (mantissa / 2 ^ shift) em.roundedMantissa := by
  obtain ⟨kept, bit, sticky⟩ := em
  obtain ⟨hbelow, hvalue, hsticky⟩ := h
  have hpos : (0 : ℚ) < 2 ^ shift := by positivity
  have hrest : (rest : ℚ) / 2 ^ shift < 1 := by
    rw [div_lt_one hpos]
    exact_mod_cast hbelow
  have hrest' : 0 ≤ (rest : ℚ) / 2 ^ shift := by positivity
  have hpart : sticky = true ↔ (rest : ℚ) / 2 ^ shift ≠ 0 := by
    rw [hsticky, Ne, Ne, div_eq_zero_iff, or_iff_left hpos.ne', Nat.cast_eq_zero]
  have hx : (mantissa : ℚ) / 2 ^ shift =
      kept + bit.toNat / 2 + (rest : ℚ) / 2 ^ shift / 2 := by
    have hcast : (2 * mantissa : ℚ) = (2 * kept + bit.toNat) * 2 ^ shift + rest := by
      exact_mod_cast hvalue
    field_simp
    linarith
  rw [hx]
  generalize (rest : ℚ) / 2 ^ shift = part at *
  have hzero : sticky = false → part = 0 := by
    rintro rfl
    simpa using hpart
  have hmore : sticky = true → 0 < part := fun h => lt_of_le_of_ne hrest' (hpart.mp h).symm
  cases bit with
  | false =>
    -- less than a half is cut off
    show Near _ (ExtendedMantissa.roundedMantissa ⟨kept, false, sticky⟩)
    have hrounded : ExtendedMantissa.roundedMantissa ⟨kept, false, sticky⟩ = kept := by
      cases sticky <;> rfl
    have hdistance : |(kept : ℚ) - (kept + (false.toNat : ℚ) / 2 + part / 2)| = part / 2 := by
      rw [abs_of_nonpos] <;> push_cast [Bool.toNat_false] <;> linarith
    rw [hrounded]
    exact ⟨by linarith, fun h => by linarith⟩
  | true =>
    cases sticky with
    | false =>
      obtain rfl := hzero rfl
      show Near _ (kept + kept % 2)
      refine ⟨?_, fun _ => by omega⟩
      obtain h | h := Nat.mod_two_eq_zero_or_one kept <;> rw [h] <;> norm_num
    | true =>
      have := hmore rfl
      show Near _ (kept + 1)
      have hdistance : |((kept + 1 : Nat) : ℚ) - (kept + (true.toNat : ℚ) / 2 + part / 2)| =
          1 / 2 - part / 2 := by
        rw [abs_of_nonneg] <;> push_cast [Bool.toNat_true] <;> linarith
      exact ⟨by linarith, fun h => by linarith⟩

/-- A whole number that is near is nearest among all of them. -/
theorem Near.nearest_nat {x : ℚ} {n : Nat} (h : Near x n) (other : Nat) :
    |(n : ℚ) - x| ≤ |(other : ℚ) - x| ∧
      (other ≠ n → |(other : ℚ) - x| = |(n : ℚ) - x| → n % 2 = 0) := by
  have hhalf := h.half
  by_cases hother : other = n
  · subst hother
    exact ⟨le_rfl, fun hne => absurd rfl hne⟩
  · have hapart : (1 : ℚ) ≤ |(other : ℚ) - n| := by
      have hint : (1 : ℤ) ≤ |(other : ℤ) - n| := Int.one_le_abs (by omega)
      exact_mod_cast hint
    have htriangle : |(other : ℚ) - n| ≤ |(other : ℚ) - x| + |(n : ℚ) - x| := by
      rw [abs_sub_comm (n : ℚ) x]
      exact abs_sub_le _ _ _
    exact ⟨by linarith, fun _ heq => h.even (by linarith)⟩

/-- It lies between any whole numbers that the number lies between. -/
theorem Near.bounds {x : ℚ} {n : Nat} (h : Near x n) {low high : Nat} (hlow : low ≤ x)
    (hhigh : x < high) : low ≤ n ∧ n ≤ high := by
  obtain ⟨hleft, hright⟩ := abs_le.mp h.half
  constructor
  · by_contra hlt
    have : (n : ℚ) + 1 ≤ low := by exact_mod_cast Nat.lt_of_not_le hlt
    linarith
  · by_contra hlt
    have : (high : ℚ) + 1 ≤ n := by exact_mod_cast Nat.lt_of_not_le hlt
    linarith

/-- A number of 53 digits is next to `x` even among those that have more digits behind the
point, since they are all smaller. -/
theorem Near.nearest {x y : ℚ} {n : Nat} (h : Near x n) (hx : 2 ^ 52 ≤ x)
    (hy : (∃ j : Nat, y = j) ∨ y < 2 ^ 52) :
    |(n : ℚ) - x| ≤ |y - x| ∧ (y ≠ n → |y - x| = |(n : ℚ) - x| → n % 2 = 0) := by
  obtain ⟨j, rfl⟩ | hy := hy
  · obtain ⟨hle, heven⟩ := h.nearest_nat j
    exact ⟨hle, fun hne => heven fun heq => hne (by rw [heq])⟩
  · have hle := (h.nearest_nat (2 ^ 52)).1
    have hedge : |((2 ^ 52 : Nat) : ℚ) - x| = x - 2 ^ 52 := by
      rw [abs_of_nonpos (by push_cast; linarith), neg_sub]
      norm_num
    have hfar : |y - x| = x - y := by
      rw [abs_of_nonpos (by linarith), neg_sub]
    exact ⟨by linarith, fun _ heq => by linarith⟩

/-! ## The nearest magnitude -/

/-- The magnitude nearest to a number, of two such the one with the even mantissa. -/
structure Nearest (q : ℚ) (mantissa : Nat) (exponent : Int) : Prop where
  nearest : ∀ m e, m < 2 ^ 53 → |dyadic mantissa exponent - q| ≤ |dyadic m e - q|
  even : ∀ m e, m < 2 ^ 53 → dyadic m e ≠ dyadic mantissa exponent →
    |dyadic m e - q| = |dyadic mantissa exponent - q| → mantissa % 2 = 0

/-- In steps of `2 ^ t`, a magnitude is whole or small. -/
theorem dyadic_steps {m : Nat} (hm : m < 2 ^ 53) (e t : Int) :
    ∃ y : ℚ, dyadic m e = y * 2 ^ t ∧ ((∃ j : Nat, y = j) ∨ y < 2 ^ 52) := by
  have hpos := two_zpow_pos t
  refine ⟨m * 2 ^ (e - t), ?_, ?_⟩
  · unfold dyadic
    rw [mul_assoc, ← zpow_add₀ (by norm_num), sub_add_cancel]
  · by_cases ht : t ≤ e
    · refine .inl ⟨m * 2 ^ (e - t).toNat, ?_⟩
      push_cast
      rw [← zpow_natCast, Int.toNat_of_nonneg (by omega)]
    · refine .inr ?_
      have hstep : (2 : ℚ) ^ (e - t) ≤ 2 ^ (-1 : Int) :=
        zpow_le_zpow_right₀ (by norm_num) (by omega)
      have hm' : (m : ℚ) < 2 ^ 53 := by exact_mod_cast hm
      calc (m : ℚ) * 2 ^ (e - t) < 2 ^ 53 * 2 ^ (e - t) :=
            mul_lt_mul_of_pos_right hm' (two_zpow_pos _)
        _ ≤ 2 ^ 53 * 2 ^ (-1 : Int) := mul_le_mul_of_nonneg_left hstep (by norm_num)
        _ = 2 ^ 52 := by norm_num

/-- In steps of the last digit the nearest whole number is the nearest magnitude. -/
theorem Near.rounded {x : ℚ} {n : Nat} (h : Near x n) (hx : 2 ^ 52 ≤ x) {t : Int}
    {mantissa : Nat} {exponent : Int} (hvalue : dyadic mantissa exponent = n * 2 ^ t)
    (heven : n % 2 = 0 → mantissa % 2 = 0) : Nearest (x * 2 ^ t) mantissa exponent := by
  have hpos := two_zpow_pos t
  have hscale : ∀ y : ℚ, |y * 2 ^ t - x * 2 ^ t| = |y - x| * 2 ^ t := by
    intro y
    rw [← sub_mul, abs_mul, abs_of_pos hpos]
  constructor
  · intro m e hm
    obtain ⟨y, hy, hkind⟩ := dyadic_steps hm e t
    rw [hvalue, hy, hscale, hscale]
    exact mul_le_mul_of_nonneg_right (h.nearest hx hkind).1 hpos.le
  · intro m e hm hne heq
    obtain ⟨y, hy, hkind⟩ := dyadic_steps hm e t
    rw [hvalue, hy, hscale, hscale, mul_left_inj' hpos.ne'] at heq
    rw [hvalue, hy, Ne, mul_left_inj' hpos.ne'] at hne
    exact heven ((h.nearest hx hkind).2 hne heq)

/-- A magnitude that is exact is nearest to itself. -/
theorem Nearest.eq {q : ℚ} {m a : Nat} {e b : Int} (h : Nearest q m e) (ha : a < 2 ^ 53)
    (hq : dyadic a b = q) : dyadic m e = q := by
  have hle := h.nearest a b ha
  rw [hq, sub_self, abs_zero] at hle
  exact sub_eq_zero.mp (abs_nonpos_iff.mp hle)

/-- What is not above a number is not above its nearest magnitude. -/
theorem Nearest.ge {q : ℚ} {m a : Nat} {e b : Int} (h : Nearest q m e) (ha : a < 2 ^ 53)
    (hq : dyadic a b ≤ q) : dyadic a b ≤ dyadic m e := by
  have hle := h.nearest a b ha
  by_contra hlt
  rw [abs_of_nonpos (by linarith), abs_of_nonpos (by linarith)] at hle
  linarith

/-- What is not below a number is not below its nearest magnitude. -/
theorem Nearest.le {q : ℚ} {m a : Nat} {e b : Int} (h : Nearest q m e) (ha : a < 2 ^ 53)
    (hq : q ≤ dyadic a b) : dyadic m e ≤ dyadic a b := by
  have hle := h.nearest a b ha
  by_contra hlt
  rw [abs_of_nonneg (by linarith), abs_of_nonneg (by linarith)] at hle
  linarith

/-! ## Rounding -/

/-- The exponent that leaves 53 digits, but for numbers that are too small for that. -/
theorem targetExponent_eq (mantissa : Nat) (exponent : Int) :
    Format.binary64.targetExponent (totalExponent mantissa exponent) =
      max (mantissa.log2 + exponent - 52) (-1074) := by
  show max ((mantissa.log2 : Int) + 1 + exponent - 53) (-1074) = _
  congr 1
  omega

/-- Shifting to the left adds digits. -/
theorem log2_shiftLeft {mantissa : Nat} (h : 0 < mantissa) (shift : Nat) :
    (mantissa <<< shift).log2 = mantissa.log2 + shift := by
  have hne := Nat.ne_of_gt h
  rw [Nat.shiftLeft_eq, Nat.log2_eq_iff (Nat.mul_ne_zero hne (Nat.ne_of_gt (Nat.two_pow_pos _)))]
  obtain ⟨hlow, hhigh⟩ := (Nat.log2_eq_iff hne).mp rfl
  constructor
  · rw [Nat.pow_add]
    exact Nat.mul_le_mul_right _ hlow
  · rw [Nat.add_right_comm, Nat.pow_add]
    exact Nat.mul_lt_mul_of_pos_right hhigh (Nat.two_pow_pos _)

/-- A mantissa is shifted so that 53 digits are left. -/
theorem shiftToTargetExponent_eq {mantissa shift : Nat} {exponent : Int}
    (hlog : mantissa.log2 = 52 + shift) (hleast : -1074 ≤ exponent + shift) :
    shiftToTargetExponent Format.binary64 mantissa exponent .exact =
      ((⟨mantissa, false, false⟩ : ExtendedMantissa) >>> shift, exponent + shift) := by
  have htarget : Format.binary64.targetExponent (totalExponent mantissa exponent) =
      exponent + shift := by
    rw [targetExponent_eq]
    omega
  unfold shiftToTargetExponent shiftToExponent
  rw [htarget]
  have hshift : (exponent + shift - exponent).toNat = shift := by omega
  dsimp only
  rw [hshift]
  rfl

/-- What is rounded has 53 digits, and is the nearest with that many. -/
theorem roundWithAccuracy_spec (sign : Sign) (shift : Nat) {mantissa : Nat} (exponent : Int)
    (hpos : 0 < mantissa) (hlog : mantissa.log2 = 52 + shift)
    (hleast : -1074 ≤ exponent + shift) :
    ∃ m e, ∃ h : 0 < m,
      roundWithAccuracy Format.binary64 sign mantissa exponent .exact = .finite sign m e h ∧
        2 ^ 52 ≤ m ∧ m < 2 ^ 53 ∧ -1074 ≤ e ∧ Nearest (dyadic mantissa exponent) m e := by
  obtain ⟨rest, hcut⟩ := cut_shift mantissa shift
  have hnear := hcut.near
  obtain ⟨hlow, hhigh⟩ := (Nat.log2_eq_iff (Nat.ne_of_gt hpos)).mp hlog
  have hscale : (0 : ℚ) < 2 ^ shift := by positivity
  have hlow' : (2 : ℚ) ^ 52 ≤ mantissa / 2 ^ shift := by
    rw [le_div_iff₀ hscale, ← pow_add]
    exact_mod_cast hlow
  have hhigh' : (mantissa : ℚ) / 2 ^ shift < 2 ^ 53 := by
    rw [div_lt_iff₀ hscale, ← pow_add, show 53 + shift = 52 + shift + 1 by omega]
    exact_mod_cast hhigh
  have hvalue : dyadic mantissa exponent =
      mantissa / 2 ^ shift * 2 ^ (exponent + shift) := by
    unfold dyadic
    rw [zpow_add₀ (by norm_num), zpow_natCast]
    field_simp
  unfold roundWithAccuracy
  rw [shiftToTargetExponent_eq hlog hleast]
  dsimp only
  generalize ((⟨mantissa, false, false⟩ : ExtendedMantissa) >>> shift).roundedMantissa
    = n at hnear ⊢
  obtain ⟨hn, hn'⟩ : 2 ^ 52 ≤ n ∧ n ≤ 2 ^ 53 :=
    hnear.bounds (by exact_mod_cast hlow') (by exact_mod_cast hhigh')
  rw [hvalue]
  obtain hlt | rfl := Nat.lt_or_eq_of_le hn'
  · have hlog' : n.log2 = 52 + 0 := (Nat.log2_eq_iff (by omega)).mpr ⟨hn, hlt⟩
    rw [shiftToTargetExponent_eq hlog' (by omega)]
    have hpos' : 0 < n := by omega
    refine ⟨n, exponent + shift + (0 : Nat), hpos', dif_neg hpos'.ne', hn, hlt, by omega, ?_⟩
    exact hnear.rounded hlow' (by unfold dyadic; simp) id
  · -- the mantissa has become one digit longer
    have hlog' : (2 ^ 53).log2 = 52 + 1 := Nat.log2_two_pow
    rw [shiftToTargetExponent_eq hlog' (by omega)]
    refine ⟨2 ^ 52, exponent + shift + (1 : Nat), by omega, rfl, le_rfl,
      by omega, by omega, ?_⟩
    refine hnear.rounded hlow' ?_ fun _ => by decide
    unfold dyadic
    rw [zpow_add₀ (by norm_num)]
    norm_num
    ring

/-- What is rounded to a real, and has a leading bit, becomes the nearest magnitude. -/
theorem round_spec (sign : Sign) {mantissa : Nat} {exponent : Int} (hpos : 0 < mantissa)
    (hleast : -1022 ≤ mantissa.log2 + exponent) :
    ∃ m e, ∃ h : 0 < m,
      UnpackedFloat.round Format.binary64 sign mantissa exponent = .finite sign m e h ∧
      2 ^ 52 ≤ m ∧ m < 2 ^ 53 ∧ -1074 ≤ e ∧ Nearest (dyadic mantissa exponent) m e := by
  unfold UnpackedFloat.round decreaseExponent
  rw [targetExponent_eq]
  dsimp only
  generalize htarget : max ((mantissa.log2 : Int) + exponent - 52) (-1074) = target
  generalize hshift : (exponent - target).toNat = shift
  have hlog := log2_shiftLeft hpos shift
  have hpos' : 0 < mantissa <<< shift := by
    rw [Nat.shiftLeft_eq]
    positivity
  obtain ⟨m, e, h, hround, hlow, hhigh, he, hnearest⟩ :=
    roundWithAccuracy_spec sign (target - (exponent - shift)).toNat (exponent - shift) hpos'
      (by omega) (by omega)
  refine ⟨m, e, h, hround, hlow, hhigh, he, ?_⟩
  rw [Nat.shiftLeft_eq, dyadic_shift] at hnearest
  exact hnearest

end Binary64

end Pseudocode.Numeral
