import LinearAssignment.Decimal.Magnitude
import LinearAssignment.Proofs.Cost.Nearest

/-! # The exact value off the bits

Sign, exponent and fraction are read off the bits of a number by division. They are the ones that
arithmetic unpacks from its word, so a number is rounded to the magnitude that is read off it.
-/

namespace LinearAssignment.Decimal

open Float.Model Float.Model.UnpackedFloat

/-- A magnitude as it is read from the bits of a number. -/
structure Magnitude.Stored (m : Magnitude) : Prop where
  canonical : Binary64.Canonical m.significand m.exponent
  positive : 0 < m.significand
  closeBelow_iff : m.closeBelow = true ↔ m.significand = 2 ^ 52 ∧ -1074 < m.exponent

/-- What an unpacked number stands for. -/
def Reading.ofUnpacked : UnpackedFloat → Reading
  | .notANumber => .undefined
  | .infinity sign => .infinite (sign == .negative)
  | .zero sign => .zero (sign == .negative)
  | .finite sign mantissa exponent _ =>
    .finite (sign == .negative) ⟨mantissa, exponent, mantissa = 2 ^ 52 ∧ -1074 < exponent⟩

section

variable (word : BitVec 64)

private theorem unpackMantissa_toNat :
    (@unpackMantissa Format.binary64 word).toNat = word.toNat % leadingUnit := by
  change (word.extractLsb' 0 52).toNat = _
  rw [BitVec.extractLsb'_toNat, Nat.shiftRight_zero]
  rfl

private theorem unpackExponent_toNat :
    (@unpackExponent Format.binary64 word).toNat = word.toNat / leadingUnit % 2048 := by
  change (word.extractLsb' 52 11).toNat = _
  rw [BitVec.extractLsb'_toNat, Nat.shiftRight_eq_div_pow]
  rfl

private theorem unpackSign_beq :
    (Sign.ofBitVec (@unpackSign Format.binary64 word) == .negative) =
      decide (UInt64.size / 2 ≤ word.toNat) := by
  have bit : (@unpackSign Format.binary64 word).toNat = word.toNat / 2 ^ 63 := by
    change (word.extractLsb' 63 1).toNat = _
    rw [BitVec.extractLsb'_toNat, Nat.shiftRight_eq_div_pow, Nat.mod_eq_of_lt]
    have := word.isLt
    omega
  have half : UInt64.size / 2 = 2 ^ 63 := rfl
  rw [Sign.ofBitVec, half]
  split_ifs with zero
  · rw [zero] at bit
    have small : ¬ 2 ^ 63 ≤ word.toNat := fun large => by
      have := Nat.div_pos large (by norm_num)
      simp only [BitVec.toNat_ofNat] at bit
      omega
    rw [decide_eq_false small]
    rfl
  · have large : 2 ^ 63 ≤ word.toNat := by
      by_contra small
      rw [Nat.div_eq_of_lt (not_le.mp small)] at bit
      exact zero (BitVec.eq_of_toNat_eq bit)
    rw [decide_eq_true large]
    rfl

end

theorem Reading.ofFloat_eq (x : Float) : ofFloat x = ofUnpacked x.toModel.unpack := by
  have word : x.toBits.toNat = x.toModel.toBits.toBitVec.toNat := rfl
  rw [ofFloat, Float.Model.unpack, UnpackedFloat.unpack, word]
  generalize x.toModel.toBits.toBitVec = bits
  dsimp only
  have fraction := unpackMantissa_toNat bits
  have scale := unpackExponent_toNat bits
  have sign := unpackSign_beq bits
  have special : @unpackExponent Format.binary64 bits =
      -BitVec.ofNat Format.binary64.exponentBits 1 ↔ bits.toNat / leadingUnit % 2048 = 2047 := by
    rw [← BitVec.toNat_inj, scale]
    rfl
  have subnormal : @unpackExponent Format.binary64 bits =
      BitVec.ofNat Format.binary64.exponentBits 0 ↔ bits.toNat / leadingUnit % 2048 = 0 := by
    rw [← BitVec.toNat_inj, scale]
    rfl
  have whole : @unpackMantissa Format.binary64 bits =
      BitVec.ofNat Format.binary64.mantissaBitsWithoutImplicit 0 ↔
        bits.toNat % leadingUnit = 0 := by
    rw [← BitVec.toNat_inj, fraction]
    rfl
  have size : (1#1 ++ @unpackMantissa Format.binary64 bits).toNat =
      leadingUnit + bits.toNat % leadingUnit := by
    rw [BitVec.toNat_append, ← Nat.shiftLeft_add_eq_or_of_lt (BitVec.isLt _), fraction]
    rfl
  have narrow : bits.toNat % leadingUnit < leadingUnit := Nat.mod_lt _ (by decide)
  simp only [special, subnormal, whole]
  split_ifs with isSpecial isWhole isSubnormal isWhole
  · rw [ofUnpacked, sign]
  · rfl
  · rw [ofUnpacked, sign]
  · have shorter : ¬ bits.toNat % leadingUnit = 2 ^ 52 := narrow.ne
    simp only [ofUnpacked, sign, fraction, scale, isSubnormal, shorter, false_and, decide_false]
    rfl
  · have first : leadingUnit + bits.toNat % leadingUnit = 2 ^ 52 ↔
        bits.toNat % leadingUnit = 0 := Nat.add_eq_left
    have place : ((bits.toNat / leadingUnit % 2048 : ℕ) : ℤ) -
        (Format.binary64.exponentBias + Format.binary64.mantissaBitsWithoutImplicit) =
          ((bits.toNat / leadingUnit % 2048 : ℕ) : ℤ) - 1075 := rfl
    have above : -1074 < ((bits.toNat / leadingUnit % 2048 : ℕ) : ℤ) - 1075 ↔
        1 < bits.toNat / leadingUnit % 2048 := by omega
    simp only [ofUnpacked, sign, size, scale, place, first, above, Bool.decide_and]

/-- What is read from the bits of a finite number other than zero. -/
theorem stored_of_finite {x : Float} {sign : Sign} {mantissa : ℕ} {exponent : ℤ}
    {positive : 0 < mantissa}
    (read : x.toModel.unpack = .finite sign mantissa exponent positive) :
    Magnitude.Stored ⟨mantissa, exponent, mantissa = 2 ^ 52 ∧ -1074 < exponent⟩ := by
  have wellFormed := Binary64.wellFormed_unpack x.toModel
  rw [read] at wellFormed
  exact ⟨wellFormed, positive, decide_eq_true_iff⟩

end LinearAssignment.Decimal
