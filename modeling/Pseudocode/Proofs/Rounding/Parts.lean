import Mathlib.Tactic.Ring
import Pseudocode.Numeral.Rounding

/-!
# The bits of a real

A real is a word of 64 bits, and arithmetic takes the word apart, computes with the parts
and puts the result together again.  Here the parts that arithmetic works on are found
to be those that `Binary64.ofFloat` reads off the word by division (`unpack_eq`), and
what is put together is found again (`ofFloat_pack`).

Both are a matter of three fields of the word, fraction, exponent and sign, which one side
cuts out as vectors of bits and the other as remainders and quotients of a number.  A field
at a time the two agree (`toNat_unpackMantissa`, `toNat_unpackExponent`,
`ofBitVec_unpackSign`); what is then made of the fields, with the cases for numbers that are
not finite and for those without a leading bit, is the same on both sides (`ofBits`).

The second is stated for mantissas with a leading bit only: a sum with one half has one.
-/

namespace Pseudocode.Numeral

open Float.Model Float.Model.UnpackedFloat

namespace Binary64

/-! ## Taking apart -/

/-- The sign of a real. -/
def signOf (negative : Bool) : Sign := if negative then .negative else .positive

/-- The parts of a real, zero on its own. -/
def unpacked : Binary64 → UnpackedFloat
  | .nan => .notANumber
  | .infinite negative => .infinity (signOf negative)
  | .finite negative mantissa exponent =>
    if h : mantissa = 0 then .zero (signOf negative)
    else .finite (signOf negative) mantissa exponent (Nat.pos_of_ne_zero h)

/-- The fraction of a word is its lower 52 bits. -/
theorem toNat_unpackMantissa (b : BitVec 64) :
    (@unpackMantissa Format.binary64 b).toNat = b.toNat % 2 ^ 52 := by
  unfold unpackMantissa
  rw [BitVec.toNat_cast, BitVec.extractLsb_toNat, Nat.shiftRight_zero]
  rfl

/-- The exponent of a word is in the 11 bits above. -/
theorem toNat_unpackExponent (b : BitVec 64) :
    (@unpackExponent Format.binary64 b).toNat = b.toNat / 2 ^ 52 % 2 ^ 11 := by
  unfold unpackExponent
  rw [BitVec.toNat_cast, BitVec.extractLsb_toNat, Nat.shiftRight_eq_div_pow]
  rfl

/-- The sign of a word is its last bit. -/
theorem ofBitVec_unpackSign (b : BitVec 64) :
    Sign.ofBitVec (@unpackSign Format.binary64 b) =
      signOf (b.toNat / 2 ^ 63 = 1) := by
  have hlt := b.isLt
  have hsign : (@unpackSign Format.binary64 b).toNat = b.toNat / 2 ^ 63 := by
    unfold unpackSign
    rw [BitVec.toNat_cast, BitVec.extractLsb_toNat, Nat.shiftRight_eq_div_pow]
    exact Nat.mod_eq_of_lt (show b.toNat / 2 ^ 63 < 2 by omega)
  unfold Sign.ofBitVec signOf
  by_cases h : b.toNat / 2 ^ 63 = 1
  · have hne : @unpackSign Format.binary64 b ≠ 0#1 := by
      intro heq
      rw [heq] at hsign
      exact absurd (hsign.trans h) (by decide)
    rw [if_neg hne, if_pos (decide_eq_true h)]
  · have heq : @unpackSign Format.binary64 b = 0#1 := by
      refine BitVec.eq_of_toNat_eq ?_
      rw [hsign]
      show b.toNat / 2 ^ 63 = 0
      omega
    rw [if_pos heq, if_neg (by simpa using h)]

/-- What a word of bits stands for. -/
def ofBits (bits : Nat) : Binary64 :=
  if bits / 2 ^ 52 % 2 ^ 11 = 2047 then
    if bits % 2 ^ 52 = 0 then .infinite (bits / 2 ^ 63 = 1) else .nan
  else if bits / 2 ^ 52 % 2 ^ 11 = 0 then
    .finite (bits / 2 ^ 63 = 1) (bits % 2 ^ 52) (-1074)
  else
    .finite (bits / 2 ^ 63 = 1) (2 ^ 52 + bits % 2 ^ 52)
      ((bits / 2 ^ 52 % 2 ^ 11 : Nat) - 1075 : Int)

/-- A real is what is read off its word. -/
theorem ofFloat_eq (x : Float) : ofFloat x = ofBits x.toBits.toNat := rfl

/-- Of a number taken apart only the parts matter, not why the mantissa is not zero. -/
theorem finite_congr {sign : Sign} {m m' : Nat} {e e' : Int} {h : 0 < m} {h' : 0 < m'}
    (hm : m = m') (he : e = e') :
    UnpackedFloat.finite sign m e h = .finite sign m' e' h' := by
  subst hm he
  rfl

/-- To unpack a word is to read its parts off. -/
theorem unpack_bits (b : BitVec 64) :
    UnpackedFloat.unpack Format.binary64 b = (ofBits b.toNat).unpacked := by
  have hmantissa := toNat_unpackMantissa b
  have hexponent := toNat_unpackExponent b
  have hleading : (1#1 ++ @unpackMantissa Format.binary64 b).toNat =
      2 ^ 52 + b.toNat % 2 ^ 52 := by
    rw [BitVec.toNat_append, ← Nat.shiftLeft_add_eq_or_of_lt (BitVec.isLt _), hmantissa]
    rfl
  have hzero : @unpackMantissa Format.binary64 b = 0#_ ↔ b.toNat % 2 ^ 52 = 0 := by
    rw [← hmantissa, BitVec.toNat_eq]
    rfl
  have hones : @unpackExponent Format.binary64 b = -1#_ ↔
      b.toNat / 2 ^ 52 % 2 ^ 11 = 2047 := by
    rw [← hexponent, BitVec.toNat_eq]
    rfl
  have hlowest : @unpackExponent Format.binary64 b = 0#_ ↔
      b.toNat / 2 ^ 52 % 2 ^ 11 = 0 := by
    rw [← hexponent, BitVec.toNat_eq]
    rfl
  unfold UnpackedFloat.unpack ofBits
  dsimp only
  rw [ofBitVec_unpackSign]
  by_cases hlarge : b.toNat / 2 ^ 52 % 2 ^ 11 = 2047
  · rw [if_pos (hones.mpr hlarge), if_pos hlarge]
    by_cases hfraction : b.toNat % 2 ^ 52 = 0
    · rw [if_pos (hzero.mpr hfraction), if_pos hfraction]
      rfl
    · rw [if_neg (mt hzero.mp hfraction), if_neg hfraction]
      rfl
  · rw [if_neg (mt hones.mp hlarge), if_neg hlarge]
    by_cases hsmall : b.toNat / 2 ^ 52 % 2 ^ 11 = 0
    · rw [if_pos (hlowest.mpr hsmall), if_pos hsmall]
      unfold unpacked
      dsimp only
      by_cases hfraction : b.toNat % 2 ^ 52 = 0
      · rw [dif_pos (hzero.mpr hfraction), dif_pos hfraction]
      · rw [dif_neg (mt hzero.mp hfraction), dif_neg hfraction]
        refine finite_congr hmantissa ?_
        rw [hexponent, hsmall]
        rfl
    · rw [if_neg (mt hlowest.mp hsmall), if_neg hsmall]
      unfold unpacked
      dsimp only
      rw [dif_neg (by omega)]
      refine finite_congr hleading ?_
      rw [hexponent]
      rfl

/-- Taking a real apart is unpacking it. -/
theorem unpack_eq (x : Float) : x.toModel.unpack = (ofFloat x).unpacked :=
  unpack_bits x.toModel.toBits.toBitVec

/-- The mantissas and exponents that reals have. -/
structure Shape (mantissa : Nat) (exponent : Int) : Prop where
  below : mantissa < 2 ^ 53
  leading : 2 ^ 52 ≤ mantissa ∨ exponent = -1074
  least : -1074 ≤ exponent
  most : exponent ≤ 971

/-- A finite real has 53 digits at most, and a leading bit unless it is of the smallest
ones. -/
theorem shape_of_finite {x : Float} {negative : Bool} {mantissa : Nat} {exponent : Int}
    (h : ofFloat x = .finite negative mantissa exponent) : Shape mantissa exponent := by
  rw [ofFloat_eq] at h
  unfold ofBits at h
  generalize x.toBits.toNat = bits at h
  split at h
  · split at h <;> cases h
  · split at h
    · cases h
      exact ⟨by omega, .inr rfl, by omega, by omega⟩
    · cases h
      exact ⟨by omega, .inl (by omega), by omega, by omega⟩

/-! ## Putting together -/

/-- The word of a real with a leading bit. -/
theorem toNat_pack {negative : Bool} {mantissa : Nat} {exponent : Int} (h : 0 < mantissa)
    (hleading : 2 ^ 52 ≤ mantissa) (hshape : Shape mantissa exponent) :
    (UnpackedFloat.pack Format.binary64 (.finite (signOf negative) mantissa exponent h)).toNat =
      negative.toNat * 2 ^ 63 + (exponent + 1075).toNat * 2 ^ 52 + (mantissa - 2 ^ 52) := by
  have hbelow := hshape.below
  have hleast := hshape.least
  have hmost := hshape.most
  have hlog : mantissa.log2 = 52 :=
    (Nat.log2_eq_iff (Nat.ne_of_gt h)).mpr ⟨hleading, hbelow⟩
  have hbiased : (exponent + (Format.binary64.exponentBias : Nat) +
      (Format.binary64.mantissaBitsWithoutImplicit : Nat) : Int) = exponent + 1075 := by
    show exponent + 1023 + 52 = exponent + 1075
    omega
  have hexponent : (exponent + 1075).toNat < 2047 := by omega
  have hsign : (signOf negative).toBitVec.toNat = negative.toNat := by
    cases negative <;> rfl
  unfold UnpackedFloat.pack
  dsimp only
  rw [hbiased, if_neg (show ¬ 2 ^ 11 ≤ (exponent + 1075).toNat + 1 by omega),
    if_pos (show mantissa.log2 + 1 = Format.binary64.mantissaBits by rw [hlog]; rfl)]
  unfold packComponents
  rw [BitVec.toNat_append, ← Nat.shiftLeft_add_eq_or_of_lt (BitVec.isLt _),
    BitVec.toNat_append, ← Nat.shiftLeft_add_eq_or_of_lt (BitVec.isLt _), hsign,
    BitVec.toNat_ofNat, BitVec.toNat_ofNat, Nat.shiftLeft_eq, Nat.shiftLeft_eq]
  show (negative.toNat * 2 ^ 11 + (exponent + 1075).toNat % 2 ^ 11) * 2 ^ 52 +
    mantissa % 2 ^ 52 = _
  omega

/-- A real that is made of parts with a leading bit has these parts. -/
theorem ofFloat_pack {negative : Bool} {mantissa : Nat} {exponent : Int} (h : 0 < mantissa)
    (hleading : 2 ^ 52 ≤ mantissa) (hshape : Shape mantissa exponent) :
    ofFloat (.ofModel (.pack (.finite (signOf negative) mantissa exponent h))) =
      .finite negative mantissa exponent := by
  have hbelow := hshape.below
  have hleast := hshape.least
  have hmost := hshape.most
  rw [ofFloat_eq]
  show ofBits (UnpackedFloat.pack Format.binary64 _).toNat = _
  rw [toNat_pack h hleading hshape]
  have hsign : negative.toNat ≤ 1 := Bool.toNat_le negative
  have hexponent : (exponent + 1075).toNat < 2047 := by omega
  generalize hbits : negative.toNat * 2 ^ 63 + (exponent + 1075).toNat * 2 ^ 52 +
    (mantissa - 2 ^ 52) = bits
  have h63 : bits / 2 ^ 63 = negative.toNat := by omega
  have h52 : bits / 2 ^ 52 % 2 ^ 11 = (exponent + 1075).toNat := by omega
  have h0 : bits % 2 ^ 52 = mantissa - 2 ^ 52 := by omega
  have hnegative : decide (negative.toNat = 1) = negative := by cases negative <;> rfl
  unfold ofBits
  rw [h63, h52, h0, if_neg (by omega), if_neg (by omega), hnegative,
    Nat.add_sub_cancel' hleading, Int.toNat_of_nonneg (by omega), Int.add_sub_cancel]

end Binary64

end Pseudocode.Numeral
