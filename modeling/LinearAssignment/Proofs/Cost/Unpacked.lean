import Mathlib

/-! # How 64-bit floating point rounds

A finite number is an integer multiple of the smallest positive one, 2⁻¹⁰⁷⁴, and what is computed
from such numbers is computed on these multiples before it is rounded. Below 2¹⁰²³ a number is
rounded to a finite one, which is off by one unit in the last place at most; there that is 2⁹⁷⁰.
Beyond, a result may be infinite, but rounding still never falls below a number that is stored.
-/

namespace LinearAssignment.Binary64

open Float.Model Float.Model.UnpackedFloat

/-! ## Shifting and rounding a mantissa -/

private theorem mantissa_shiftRight (extended : ExtendedMantissa) (places : ℕ) :
    (extended >>> places).mantissa = extended.mantissa / 2 ^ places := by
  change (places.repeat ExtendedMantissa.shiftRightOne extended).mantissa = _
  induction places with
  | zero => exact (Nat.div_one _).symm
  | succ places ih =>
    change (places.repeat ExtendedMantissa.shiftRightOne extended).mantissa / 2 = _
    rw [ih, Nat.div_div_eq_div_mul, pow_succ]

/-- Nothing is lost where all places that are dropped are zero. -/
private theorem shiftRight_of_dvd {mantissa places : ℕ} (divides : 2 ^ places ∣ mantissa) :
    (ExtendedMantissa.mk mantissa false false) >>> places =
      ⟨mantissa / 2 ^ places, false, false⟩ := by
  change places.repeat ExtendedMantissa.shiftRightOne ⟨mantissa, false, false⟩ = _
  induction places with
  | zero => rw [Nat.repeat, pow_zero, Nat.div_one]
  | succ places ih =>
    have halves : 2 ∣ mantissa / 2 ^ places := by
      rw [pow_succ] at divides
      exact Nat.dvd_div_of_mul_dvd divides
    rw [Nat.repeat, ih ((pow_dvd_pow 2 places.le_succ).trans divides),
      ExtendedMantissa.shiftRightOne, Nat.mod_eq_zero_of_dvd halves, Nat.div_div_eq_div_mul,
      pow_succ]
    rfl

/-- Rounding a mantissa adds one unit at most. -/
private theorem roundedMantissa_bounds (extended : ExtendedMantissa) :
    extended.mantissa ≤ extended.roundedMantissa ∧
      extended.roundedMantissa ≤ extended.mantissa + 1 := by
  obtain ⟨mantissa, roundBit, stickyBit⟩ := extended
  cases roundBit <;> cases stickyBit <;>
    simp only [ExtendedMantissa.roundedMantissa, ExtendedMantissa.accuracy,
      Accuracy.roundToNearestEven] <;> omega

/-- The exponent under which a number has 53 bits, unless that is too low. -/
theorem targetExponent_eq (mantissa : ℕ) (exponent : ℤ) :
    Format.binary64.targetExponent (totalExponent mantissa exponent) =
      max (mantissa.log2 + exponent - 52) (-1074) := by
  simp only [Format.targetExponent, totalExponent, Format.mantissaBits, Format.minExponent]
  omega

private theorem mantissa_shiftToTargetExponent (mantissa : ℕ) (exponent : ℤ)
    (accuracy : Accuracy) :
    (shiftToTargetExponent Format.binary64 mantissa exponent accuracy).1.mantissa = mantissa /
      2 ^ (max (mantissa.log2 + exponent - 52) (-1074) - exponent).toNat := by
  have kept : (ExtendedMantissa.ofMantissaAndAccuracy mantissa accuracy).mantissa = mantissa := by
    rcases accuracy with _ | _ | _ | _ <;> rfl
  rw [shiftToTargetExponent, targetExponent_eq]
  refine (mantissa_shiftRight ..).trans ?_
  rw [kept]

private theorem roundedMantissa_of_dvd {mantissa : ℕ} {exponent : ℤ}
    (divides : 2 ^ (max (mantissa.log2 + exponent - 52) (-1074) - exponent).toNat ∣ mantissa) :
    (shiftToTargetExponent Format.binary64 mantissa exponent .exact).1.roundedMantissa = mantissa /
      2 ^ (max (mantissa.log2 + exponent - 52) (-1074) - exponent).toNat := by
  rw [shiftToTargetExponent, targetExponent_eq, shiftToExponent]
  dsimp only
  rw [ExtendedMantissa.ofMantissaAndAccuracy, shiftRight_of_dvd divides]
  rfl

theorem exponent_shiftToTargetExponent (mantissa : ℕ) (exponent : ℤ)
    (accuracy : Accuracy) :
    (shiftToTargetExponent Format.binary64 mantissa exponent accuracy).2 =
      exponent + (max (mantissa.log2 + exponent - 52) (-1074) - exponent).toNat := by
  rw [shiftToTargetExponent, targetExponent_eq]
  rfl

/-! ## Finite numbers -/

/-- How many times the smallest positive number 2¹⁰²³ is. -/
def safeUnits : ℕ := 2 ^ (1023 + 1074)

/-- How many times the smallest positive number 2⁹⁷⁰ is, the last place of the largest numbers below
2¹⁰²³. -/
def lastPlaceUnits : ℕ := 2 ^ (970 + 1074)

/-- The mantissa and the exponent of a finite number other than zero, as they are read from a
word. -/
structure Canonical (mantissa : ℕ) (exponent : ℤ) : Prop where
  narrow : mantissa < 2 ^ 53
  low : -1074 ≤ exponent
  high : exponent ≤ 971
  full : 2 ^ 52 ≤ mantissa ∨ exponent = -1074

/-- How many times the smallest positive number a magnitude is. -/
def magnitudeUnits (mantissa : ℕ) (exponent : ℤ) : ℕ := mantissa * 2 ^ (exponent + 1074).toNat

/-- A mantissa and an exponent as rounding leaves them. The exponent may be too high for a word. -/
structure Trimmed (mantissa : ℕ) (exponent : ℤ) : Prop where
  narrow : mantissa < 2 ^ 53
  low : -1074 ≤ exponent
  full : 2 ^ 52 ≤ mantissa ∨ exponent = -1074

theorem Trimmed.canonical {mantissa : ℕ} {exponent : ℤ} (trimmed : Trimmed mantissa exponent)
    (high : exponent ≤ 971) : Canonical mantissa exponent :=
  ⟨trimmed.narrow, trimmed.low, high, trimmed.full⟩

/-- Carrying a mantissa that was rounded up to 54 bits keeps the magnitude. -/
theorem carry {mantissa : ℕ} {exponent : ℤ} (narrow : mantissa ≤ 2 ^ 53)
    (low : -1074 ≤ exponent) (full : 2 ^ 52 ≤ mantissa ∨ exponent = -1074) :
    let carried := shiftToTargetExponent Format.binary64 mantissa exponent .exact
    Trimmed carried.1.mantissa carried.2 ∧ carried.2 ≤ exponent + 1 ∧
      magnitudeUnits carried.1.mantissa carried.2 = magnitudeUnits mantissa exponent := by
  intro carried
  rw [mantissa_shiftToTargetExponent, exponent_shiftToTargetExponent]
  rcases narrow.lt_or_eq with fits | rfl
  · have places : (max (mantissa.log2 + exponent - 52) (-1074) - exponent).toNat = 0 := by
      have : mantissa.log2 < 53 := by
        rcases eq_or_ne mantissa 0 with rfl | positive
        · decide
        · exact (Nat.log2_lt positive).mpr fits
      omega
    rw [places, pow_zero, Nat.div_one, Nat.cast_zero, add_zero]
    exact ⟨⟨fits, low, full⟩, by omega, rfl⟩
  · have places : (max ((2 ^ 53 : ℕ).log2 + exponent - 52) (-1074) - exponent).toNat = 1 := by
      rw [Nat.log2_two_pow]
      omega
    rw [places]
    refine ⟨⟨by norm_num, by omega, .inl (by norm_num)⟩, by omega, ?_⟩
    have next : (exponent + (1 : ℕ) + 1074).toNat = (exponent + 1074).toNat + 1 := by omega
    rw [magnitudeUnits, magnitudeUnits, next, pow_succ]
    norm_num
    ring

/-- A number that is read from a word. -/
def WellFormed : UnpackedFloat → Prop
  | .finite _ mantissa exponent _ => Canonical mantissa exponent
  | _ => True

/-- How many times the smallest positive number a finite number is. -/
def unpackedUnits : UnpackedFloat → ℤ
  | .finite sign mantissa exponent _ => sign.apply (magnitudeUnits mantissa exponent)
  | _ => 0

/-- A number below 2¹⁰²³ after rounding: it is finite and off by one unit in the last place of the
largest such numbers at most. -/
structure Rounds (result : UnpackedFloat) (exact : ℤ) : Prop where
  wellFormed : WellFormed result
  finite : result.isFinite = true
  close : |unpackedUnits result - exact| ≤ lastPlaceUnits

/-- A whole number with 53 bits at most before its last zeros. -/
def Narrow (k : ℤ) : Prop := ∃ places : ℕ, (2 ^ places : ℤ) ∣ k ∧ |k| < 2 ^ (53 + places)

/-- A number below 2¹⁰²³ after rounding, which changes nothing about it if it has 53 bits at
most. -/
structure Sharp (result : UnpackedFloat) (exact : ℤ) : Prop extends Rounds result exact where
  units_eq : Narrow exact → unpackedUnits result = exact

private theorem abs_apply (sign : Sign) (a b : ℤ) : |sign.apply a - sign.apply b| = |a - b| := by
  cases sign with
  | negative => rw [Sign.apply, Sign.apply, ← abs_neg]; congr 1; ring
  | positive => rfl

/-- Dropping places from a mantissa and rounding it up or not is off by one unit at most. -/
private theorem abs_rounded_sub {mantissa rounded places : ℕ}
    (floor : mantissa / 2 ^ places ≤ rounded) (ceil : rounded ≤ mantissa / 2 ^ places + 1) :
    |((rounded * 2 ^ places : ℕ) : ℤ) - mantissa| ≤ 2 ^ places := by
  have unit : 0 < 2 ^ places := Nat.two_pow_pos places
  have below := Nat.div_mul_le_self mantissa (2 ^ places)
  have above := Nat.lt_div_mul_add unit (a := mantissa)
  have lower := Nat.mul_le_mul_right (2 ^ places) floor
  have upper := Nat.mul_le_mul_right (2 ^ places) ceil
  rw [Nat.add_mul, Nat.one_mul] at upper
  rw [abs_le]
  constructor
  · zify at *
    omega
  · zify at *
    omega

private theorem rounds_zero (sign : Sign) : Rounds (.zero sign) 0 where
  wellFormed := trivial
  finite := rfl
  close := by
    rw [unpackedUnits, sub_self, abs_zero]
    · positivity
    · simp

private theorem sharp_zero (sign : Sign) : Sharp (.zero sign) 0 :=
  ⟨rounds_zero sign, fun _ => rfl⟩

private theorem units_of_canonical (sign : Sign) (mantissa : ℕ) (exponent : ℤ) :
    unpackedUnits (if vanishes : mantissa = 0 then .zero sign
      else .finite sign mantissa exponent (Nat.pos_of_ne_zero vanishes)) =
      sign.apply (magnitudeUnits mantissa exponent) := by
  split_ifs with vanishes
  · rw [vanishes, magnitudeUnits, Nat.zero_mul]
    cases sign <;> rfl
  · rfl

private theorem rounds_of_canonical (sign : Sign) {mantissa : ℕ} {exponent exact : ℤ}
    (canonical : Canonical mantissa exponent)
    (close : |(magnitudeUnits mantissa exponent : ℤ) - exact| ≤ lastPlaceUnits) :
    Rounds (if vanishes : mantissa = 0 then .zero sign
      else .finite sign mantissa exponent (Nat.pos_of_ne_zero vanishes)) (sign.apply exact) := by
  split_ifs with vanishes
  · have units : ((magnitudeUnits mantissa exponent : ℕ) : ℤ) = 0 := by
      rw [vanishes, magnitudeUnits, Nat.zero_mul, Nat.cast_zero]
    have zero : unpackedUnits (.zero sign) = sign.apply 0 := by cases sign <;> rfl
    refine ⟨trivial, rfl, ?_⟩
    rwa [zero, abs_apply, ← units]
  · refine ⟨canonical, rfl, ?_⟩
    rwa [unpackedUnits, abs_apply]

/-- Rounding a mantissa to its target exponent drops places of it and adds one unit at most, and
none if the dropped places are zero. -/
private theorem exists_trimmed (sign : Sign) {mantissa places : ℕ} {exponent : ℤ}
    (accuracy : Accuracy)
    (target : max (mantissa.log2 + exponent - 52) (-1074) = exponent + places)
    (full : mantissa ≠ 0 ∨ exponent + places = -1074) :
    ∃ rounded kept carried, mantissa / 2 ^ places ≤ rounded ∧
      rounded ≤ mantissa / 2 ^ places + 1 ∧
      (accuracy = .exact → 2 ^ places ∣ mantissa → rounded = mantissa / 2 ^ places) ∧
      Trimmed kept carried ∧ carried ≤ exponent + places + 1 ∧
      magnitudeUnits kept carried = magnitudeUnits rounded (exponent + places) ∧
      roundWithAccuracy Format.binary64 sign mantissa exponent accuracy =
        if vanishes : kept = 0 then .zero sign
        else .finite sign kept carried (Nat.pos_of_ne_zero vanishes) := by
  set first := shiftToTargetExponent Format.binary64 mantissa exponent accuracy with shifted
  have exponent_eq : first.2 = exponent + places := by
    rw [shifted, exponent_shiftToTargetExponent]
    omega
  have mantissa_eq : first.1.mantissa = mantissa / 2 ^ places := by
    rw [shifted, mantissa_shiftToTargetExponent, target, add_sub_cancel_left, Int.toNat_natCast]
  obtain ⟨floor, ceil⟩ := roundedMantissa_bounds first.1
  rw [mantissa_eq] at floor ceil
  have narrow : first.1.roundedMantissa ≤ 2 ^ 53 := by
    have : mantissa / 2 ^ places < 2 ^ 53 := by
      rw [Nat.div_lt_iff_lt_mul (Nat.two_pow_pos places), ← pow_add]
      exact Nat.lt_log2_self.trans_le (Nat.pow_le_pow_right (by norm_num) (by omega))
    omega
  have full' : 2 ^ 52 ≤ first.1.roundedMantissa ∨ exponent + places = -1074 := by
    by_cases lowest : exponent + places = -1074
    · exact .inr lowest
    · refine .inl (le_trans ?_ floor)
      rw [Nat.le_div_iff_mul_le (Nat.two_pow_pos places), ← pow_add]
      refine le_trans (Nat.pow_le_pow_right (by norm_num) ?_)
        (Nat.log2_self_le (full.resolve_right lowest))
      omega
  obtain ⟨trimmed, next, same⟩ := carry narrow (by omega : -1074 ≤ exponent + places) full'
  have places_eq : (max (mantissa.log2 + exponent - 52) (-1074) - exponent).toNat = places := by
    rw [target, add_sub_cancel_left, Int.toNat_natCast]
  refine ⟨_, _, _, floor, ceil, ?_, trimmed, next, same, ?_⟩
  · rintro rfl divides
    rw [← places_eq] at divides ⊢
    exact roundedMantissa_of_dvd divides
  · rw [roundWithAccuracy, ← shifted]
    dsimp only
    rw [exponent_eq]

/-- Where nothing gets too large, rounding a mantissa gives a number. -/
private theorem exists_roundWithAccuracy (sign : Sign) {mantissa places : ℕ} {exponent : ℤ}
    (accuracy : Accuracy)
    (target : max (mantissa.log2 + exponent - 52) (-1074) = exponent + places)
    (high : exponent + places ≤ 970) (full : mantissa ≠ 0 ∨ exponent + places = -1074) :
    ∃ rounded, mantissa / 2 ^ places ≤ rounded ∧ rounded ≤ mantissa / 2 ^ places + 1 ∧
      (accuracy = .exact → 2 ^ places ∣ mantissa → rounded = mantissa / 2 ^ places) ∧
      unpackedUnits (roundWithAccuracy Format.binary64 sign mantissa exponent accuracy) =
        sign.apply (magnitudeUnits rounded (exponent + places)) ∧
      ∀ exact : ℤ,
        |(magnitudeUnits rounded (exponent + places) : ℤ) - exact| ≤ lastPlaceUnits →
        Rounds (roundWithAccuracy Format.binary64 sign mantissa exponent accuracy)
          (sign.apply exact) := by
  obtain ⟨rounded, kept, carried, floor, ceil, exactly, trimmed, next, same, result⟩ :=
    exists_trimmed sign accuracy target full
  refine ⟨rounded, floor, ceil, exactly, ?_, fun exact close => ?_⟩
  · rw [result, units_of_canonical, same]
  · rw [← same] at close
    rw [result]
    exact rounds_of_canonical sign (trimmed.canonical (by omega)) close

/-- One unit in the last place of a number below 2¹⁰²³. -/
private theorem two_pow_le_lastPlaceUnits {target : ℤ} (high : target ≤ 970) :
    (2 : ℤ) ^ (target + 1074).toNat ≤ lastPlaceUnits := by
  exact_mod_cast Nat.pow_le_pow_right (by norm_num) (by omega)

private theorem narrow_apply_iff {sign : Sign} {units : ℕ} :
    Narrow (sign.apply units) ↔ ∃ places, 2 ^ places ∣ units ∧ units < 2 ^ (53 + places) := by
  refine exists_congr fun places => and_congr ?_ ?_
  · have factor : ((2 : ℤ) ^ places ∣ units) ↔ 2 ^ places ∣ units := by
      exact_mod_cast Int.natCast_dvd_natCast
    cases sign with
    | negative => rw [Sign.apply, dvd_neg, factor]
    | positive => rw [Sign.apply, factor]
  · have size : |sign.apply units| = units := by
      cases sign with
      | negative => rw [Sign.apply, abs_neg, Nat.abs_cast]
      | positive => exact Nat.abs_cast units
    rw [size]
    exact_mod_cast Iff.rfl

/-- The places that a narrow number loses under its target exponent are zero. -/
private theorem dvd_of_narrow {sign : Sign} {mantissa places : ℕ} {exponent : ℤ}
    (positive : mantissa ≠ 0) (low : -1074 ≤ exponent)
    (target : max (mantissa.log2 + exponent - 52) (-1074) = exponent + places)
    (narrow : Narrow (sign.apply (magnitudeUnits mantissa exponent))) : 2 ^ places ∣ mantissa := by
  obtain ⟨zeros, divides, size⟩ := narrow_apply_iff.mp narrow
  rw [magnitudeUnits] at divides size
  rcases Nat.eq_zero_or_pos places with rfl | some
  · exact one_dvd _
  · have log : 2 ^ (mantissa.log2 + (exponent + 1074).toNat) < 2 ^ (53 + zeros) := by
      rw [pow_add]
      exact (Nat.mul_le_mul_right _ (Nat.log2_self_le positive)).trans_lt size
    have fewer := (Nat.pow_lt_pow_iff_right (by norm_num)).mp log
    have enough : 2 ^ (places + (exponent + 1074).toNat) ∣
        mantissa * 2 ^ (exponent + 1074).toNat :=
      (pow_dvd_pow 2 (by omega)).trans divides
    rw [pow_add] at enough
    exact Nat.dvd_of_mul_dvd_mul_right (Nat.two_pow_pos _) enough

/-- Rounding a mantissa that has all its bits. -/
private theorem roundWithAccuracy_sharp (sign : Sign) {mantissa : ℕ} {exponent : ℤ}
    (positive : mantissa ≠ 0) (low : -1074 ≤ exponent)
    (wide : exponent ≤ max (mantissa.log2 + exponent - 52) (-1074))
    (bound : magnitudeUnits mantissa exponent < safeUnits) :
    Sharp (roundWithAccuracy Format.binary64 sign mantissa exponent .exact)
      (sign.apply (magnitudeUnits mantissa exponent)) := by
  obtain ⟨places, target⟩ := Int.le.dest wide
  have high : exponent + places ≤ 970 := by
    have size : 2 ^ (mantissa.log2 + (exponent + 1074).toNat) < 2 ^ (1023 + 1074) := by
      rw [pow_add]
      exact (Nat.mul_le_mul_right _ (Nat.log2_self_le positive)).trans_lt bound
    have := (Nat.pow_lt_pow_iff_right (by norm_num)).mp size
    omega
  obtain ⟨rounded, floor, ceil, kept, units, rounds⟩ :=
    exists_roundWithAccuracy sign .exact target.symm high (.inl positive)
  have split : (exponent + places + 1074).toNat = places + (exponent + 1074).toNat := by omega
  constructor
  · refine rounds _ ?_
    rw [magnitudeUnits, magnitudeUnits, split, pow_add, ← mul_assoc]
    push_cast
    rw [← sub_mul, abs_mul,
      abs_of_nonneg (by positivity : (0 : ℤ) ≤ 2 ^ (exponent + 1074).toNat)]
    calc _ ≤ (2 : ℤ) ^ places * 2 ^ (exponent + 1074).toNat := by
          refine mul_le_mul_of_nonneg_right ?_ (by positivity)
          exact_mod_cast abs_rounded_sub floor ceil
      _ = 2 ^ (exponent + places + 1074).toNat := by rw [split, pow_add]
      _ ≤ lastPlaceUnits := two_pow_le_lastPlaceUnits high
  · intro narrow
    have divides := dvd_of_narrow positive low target.symm narrow
    rw [units, kept rfl divides, magnitudeUnits, magnitudeUnits, split, pow_add, ← mul_assoc,
      Nat.div_mul_cancel divides]

private theorem log2_shiftLeft {mantissa : ℕ} (positive : mantissa ≠ 0) (places : ℕ) :
    (mantissa <<< places).log2 = mantissa.log2 + places := by
  rw [Nat.shiftLeft_eq, Nat.log2_eq_iff (Nat.mul_ne_zero positive (Nat.two_pow_pos _).ne')]
  constructor
  · rw [pow_add]
    exact Nat.mul_le_mul_right _ (Nat.log2_self_le positive)
  · rw [Nat.add_right_comm, pow_add]
    exact Nat.mul_lt_mul_of_pos_right Nat.lt_log2_self (Nat.two_pow_pos places)

/-- Lowering the exponent keeps the magnitude. -/
private theorem magnitudeUnits_decreaseExponent (mantissa : ℕ) {exponent target : ℤ}
    (low : -1074 ≤ exponent) (lower : -1074 ≤ target) :
    magnitudeUnits (decreaseExponent mantissa exponent target).1
      (decreaseExponent mantissa exponent target).2 = magnitudeUnits mantissa exponent := by
  have split : (exponent + 1074).toNat =
      (exponent - target).toNat + (exponent - (exponent - target).toNat + 1074).toNat := by omega
  rw [decreaseExponent, magnitudeUnits, magnitudeUnits, Nat.shiftLeft_eq, split, pow_add,
    Nat.mul_assoc]

/-- A mantissa gets all its bits before it is rounded. -/
private theorem exists_round_eq (sign : Sign) {mantissa : ℕ} {exponent : ℤ}
    (positive : mantissa ≠ 0) (low : -1074 ≤ exponent) :
    ∃ (mantissa' : ℕ) (exponent' : ℤ), mantissa' ≠ 0 ∧ -1074 ≤ exponent' ∧
      exponent' ≤ max (mantissa'.log2 + exponent' - 52) (-1074) ∧
      magnitudeUnits mantissa' exponent' = magnitudeUnits mantissa exponent ∧
      UnpackedFloat.round Format.binary64 sign mantissa exponent =
        roundWithAccuracy Format.binary64 sign mantissa' exponent' .exact := by
  have same := magnitudeUnits_decreaseExponent mantissa low
    (le_max_right (mantissa.log2 + exponent - 52) (-1074))
  rw [UnpackedFloat.round, targetExponent_eq]
  refine ⟨_, _, ?_, ?_, ?_, same, rfl⟩ <;> dsimp only [decreaseExponent]
  · exact Nat.shiftLeft_eq .. ▸ Nat.mul_ne_zero positive (Nat.two_pow_pos _).ne'
  · omega
  · rw [log2_shiftLeft positive]
    omega

private theorem round_sharp (sign : Sign) {mantissa : ℕ} {exponent : ℤ}
    (positive : mantissa ≠ 0) (low : -1074 ≤ exponent)
    (bound : magnitudeUnits mantissa exponent < safeUnits) :
    Sharp (UnpackedFloat.round Format.binary64 sign mantissa exponent)
      (sign.apply (magnitudeUnits mantissa exponent)) := by
  obtain ⟨mantissa', exponent', positive', low', wide, same, result⟩ :=
    exists_round_eq sign positive low
  rw [← same] at bound ⊢
  rw [result]
  exact roundWithAccuracy_sharp sign positive' low' wide bound

/-- Rounding a signed mantissa. -/
private theorem normalize_sharp (mantissa : ℤ) {exponent : ℤ} (zeroSign : Sign)
    (low : -1074 ≤ exponent) (bound : |mantissa * 2 ^ (exponent + 1074).toNat| < safeUnits) :
    Sharp (UnpackedFloat.normalize Format.binary64 mantissa exponent zeroSign)
      (mantissa * 2 ^ (exponent + 1074).toNat) := by
  rw [abs_mul, abs_of_nonneg (by positivity : (0 : ℤ) ≤ 2 ^ (exponent + 1074).toNat)] at bound
  have bounded : magnitudeUnits mantissa.natAbs exponent < safeUnits := by
    zify [magnitudeUnits]
    exact bound
  rw [UnpackedFloat.normalize]
  rcases lt_trichotomy mantissa 0 with negative | rfl | positive
  · rw [Int.compare_eq_lt.mpr negative]
    obtain ⟨opposite, rfl⟩ : ∃ opposite : ℕ, mantissa = -opposite :=
      ⟨mantissa.natAbs, by omega⟩
    rw [Int.natAbs_neg, Int.natAbs_natCast] at bounded
    have sharp := round_sharp .negative (by omega : opposite ≠ 0) low bounded
    rw [Sign.apply, magnitudeUnits] at sharp
    rw [neg_neg, Int.toNat_natCast, neg_mul]
    exact_mod_cast sharp
  · rw [Int.compare_eq_eq.mpr rfl, zero_mul]
    exact sharp_zero zeroSign
  · rw [Int.compare_eq_gt.mpr positive]
    obtain ⟨natural, rfl⟩ := Int.eq_ofNat_of_zero_le positive.le
    rw [Int.natAbs_natCast] at bounded
    have sharp := round_sharp .positive (by omega : natural ≠ 0) low bounded
    rw [Sign.apply, magnitudeUnits] at sharp
    rw [Int.toNat_natCast]
    exact_mod_cast sharp

/-! ## Sums and differences -/

/-- A number is the same under a lower exponent. -/
private theorem apply_decreaseExponent (sign : Sign) (mantissa : ℕ) {exponent target : ℤ}
    (lower : -1074 ≤ target) (below : target ≤ exponent) :
    sign.apply (decreaseExponent mantissa exponent target).1 * 2 ^ (target + 1074).toNat =
      sign.apply (magnitudeUnits mantissa exponent) := by
  have reached : (decreaseExponent mantissa exponent target).2 = target := by
    dsimp only [decreaseExponent]
    omega
  rw [← magnitudeUnits_decreaseExponent mantissa (lower.trans below) lower, reached, magnitudeUnits]
  cases sign with
  | negative =>
    rw [Sign.apply, Sign.apply]
    push_cast
    ring
  | positive =>
    rw [Sign.apply, Sign.apply]
    push_cast
    rfl

variable {a b : UnpackedFloat}

theorem Rounds.self (wellFormed : WellFormed a) (finite : a.isFinite = true) :
    Rounds a (unpackedUnits a) := by
  refine ⟨wellFormed, finite, ?_⟩
  rw [sub_self, abs_zero]
  positivity

theorem Sharp.self (wellFormed : WellFormed a) (finite : a.isFinite = true) :
    Sharp a (unpackedUnits a) :=
  ⟨.self wellFormed finite, fun _ => rfl⟩

/-- A finite number is zero or has a mantissa and an exponent. -/
theorem zero_or_canonical (wellFormed : WellFormed a) (finite : a.isFinite = true) :
    (∃ sign, a = .zero sign ∧ unpackedUnits a = 0) ∨
      ∃ sign mantissa exponent positive, a = .finite sign mantissa exponent positive ∧
        Canonical mantissa exponent ∧
        unpackedUnits a = sign.apply (magnitudeUnits mantissa exponent) := by
  cases a with
  | notANumber => contradiction
  | infinity sign => contradiction
  | zero sign => exact .inl ⟨sign, rfl, rfl⟩
  | finite sign mantissa exponent positive =>
    exact .inr ⟨sign, mantissa, exponent, positive, rfl, wellFormed, rfl⟩

theorem add_sharp (wellFormed : WellFormed a) (finite : a.isFinite = true)
    (wellFormed' : WellFormed b) (finite' : b.isFinite = true)
    (bound : |unpackedUnits a + unpackedUnits b| < safeUnits) :
    Sharp (UnpackedFloat.add Format.binary64 a b) (unpackedUnits a + unpackedUnits b) := by
  obtain ⟨sign, rfl, units⟩ | ⟨sign, mantissa, exponent, positive, rfl, canonical, units⟩ :=
    zero_or_canonical wellFormed finite
  · obtain ⟨sign', rfl, units'⟩ | ⟨sign', mantissa', exponent', positive', rfl, _⟩ :=
      zero_or_canonical wellFormed' finite'
    · rw [units, units', add_zero]
      cases sign <;> cases sign' <;> exact sharp_zero _
    · rw [units, zero_add]
      exact .self wellFormed' finite'
  · obtain ⟨sign', rfl, units'⟩ |
      ⟨sign', mantissa', exponent', positive', rfl, canonical', units'⟩ :=
      zero_or_canonical wellFormed' finite'
    · rw [units', add_zero]
      exact .self wellFormed finite
    · have low : -1074 ≤ min exponent exponent' := le_min canonical.low canonical'.low
      have sum := congrArg₂ (· + ·)
        (apply_decreaseExponent sign mantissa low (min_le_left exponent exponent'))
        (apply_decreaseExponent sign' mantissa' low (min_le_right exponent exponent'))
      rw [← units, ← units', ← add_mul] at sum
      rw [← sum] at bound ⊢
      exact normalize_sharp _ .positive low bound

/-- Changing the sign of a number other than zero. -/
private theorem neg_sharp {sign : Sign} {mantissa : ℕ} {exponent : ℤ} {positive : 0 < mantissa}
    (canonical : Canonical mantissa exponent) :
    Sharp (.finite (-sign) mantissa exponent positive)
      (-sign.apply (magnitudeUnits mantissa exponent)) := by
  have units : unpackedUnits (.finite (-sign) mantissa exponent positive) =
      -sign.apply (magnitudeUnits mantissa exponent) := by
    cases sign with
    | negative => exact (neg_neg _).symm
    | positive => rfl
  rw [← units]
  exact .self canonical rfl

theorem sub_sharp (wellFormed : WellFormed a) (finite : a.isFinite = true)
    (wellFormed' : WellFormed b) (finite' : b.isFinite = true)
    (bound : |unpackedUnits a - unpackedUnits b| < safeUnits) :
    Sharp (UnpackedFloat.sub Format.binary64 a b) (unpackedUnits a - unpackedUnits b) := by
  obtain ⟨sign, rfl, units⟩ | ⟨sign, mantissa, exponent, positive, rfl, canonical, units⟩ :=
    zero_or_canonical wellFormed finite
  · obtain ⟨sign', rfl, units'⟩ |
      ⟨sign', mantissa', exponent', positive', rfl, canonical', units'⟩ :=
      zero_or_canonical wellFormed' finite'
    · rw [units, units', sub_zero]
      cases sign <;> cases sign' <;> exact sharp_zero _
    · rw [units, units', zero_sub]
      exact neg_sharp canonical'
  · obtain ⟨sign', rfl, units'⟩ |
      ⟨sign', mantissa', exponent', positive', rfl, canonical', units'⟩ :=
      zero_or_canonical wellFormed' finite'
    · rw [units', sub_zero]
      exact .self wellFormed finite
    · have low : -1074 ≤ min exponent exponent' := le_min canonical.low canonical'.low
      have difference := congrArg₂ (· - ·)
        (apply_decreaseExponent sign mantissa low (min_le_left exponent exponent'))
        (apply_decreaseExponent sign' mantissa' low (min_le_right exponent exponent'))
      rw [← units, ← units', ← sub_mul] at difference
      rw [← difference] at bound ⊢
      exact normalize_sharp _ .positive low bound

/-! ## Doubles, halves and magnitudes -/

/-- The number two. -/
def two : UnpackedFloat := .finite .positive (2 ^ 52) (-51) (Nat.two_pow_pos 52)

/-- Rounding a mantissa stays close to what is left of it when its last places are dropped. -/
private theorem roundWithAccuracy_rounds_floor (sign : Sign) {mantissa places : ℕ} {exponent : ℤ}
    (accuracy : Accuracy)
    (target : max (mantissa.log2 + exponent - 52) (-1074) = exponent + places)
    (high : exponent + places ≤ 970) (full : mantissa ≠ 0 ∨ exponent + places = -1074) :
    Rounds (roundWithAccuracy Format.binary64 sign mantissa exponent accuracy)
      (sign.apply (magnitudeUnits (mantissa / 2 ^ places) (exponent + places))) := by
  obtain ⟨rounded, floor, ceil, _, _, rounds⟩ :=
    exists_roundWithAccuracy sign accuracy target high full
  refine rounds _ ?_
  rw [magnitudeUnits, magnitudeUnits]
  push_cast
  rw [← sub_mul, abs_mul,
    abs_of_nonneg (by positivity : (0 : ℤ) ≤ 2 ^ (exponent + places + 1074).toNat)]
  have one : |(rounded : ℤ) - (mantissa / 2 ^ places : ℕ)| ≤ 1 := abs_le.mpr ⟨by omega, by omega⟩
  push_cast at one
  calc _ ≤ 1 * (2 : ℤ) ^ (exponent + places + 1074).toNat :=
        mul_le_mul_of_nonneg_right one (by positivity)
    _ ≤ lastPlaceUnits := by
        rw [one_mul]
        exact two_pow_le_lastPlaceUnits high

/-- The number of bits of a mantissa that is read from a word. -/
private theorem Canonical.log2_cases {mantissa : ℕ} {exponent : ℤ}
    (canonical : Canonical mantissa exponent) (positive : mantissa ≠ 0) :
    mantissa.log2 = 52 ∨ mantissa.log2 < 52 ∧ exponent = -1074 := by
  have narrow := (Nat.log2_lt positive).mpr canonical.narrow
  rcases canonical.full with full | lowest
  · have := (Nat.le_log2 positive).mpr full
    omega
  · omega

/-- Twice a magnitude, as it is rounded to its target exponent: the places that it loses are
zero. -/
private theorem exists_places_double {mantissa : ℕ} {exponent : ℤ}
    (canonical : Canonical mantissa exponent) (positive : mantissa ≠ 0) :
    ∃ places : ℕ, max ((mantissa * 2 ^ 52).log2 + (exponent + -51) - 52) (-1074) =
        exponent + -51 + places ∧
      (2 * magnitudeUnits mantissa exponent < safeUnits → exponent + -51 + places ≤ 970) ∧
      2 ^ places ∣ mantissa * 2 ^ 52 ∧
      magnitudeUnits (mantissa * 2 ^ 52 / 2 ^ places) (exponent + -51 + places) =
        2 * magnitudeUnits mantissa exponent := by
  have low := canonical.low
  rw [← Nat.shiftLeft_eq, log2_shiftLeft positive, Nat.shiftLeft_eq]
  rcases canonical.log2_cases positive with full | ⟨short, rfl⟩
  · refine ⟨52, by omega, fun bound => ?_, dvd_mul_left _ _, ?_⟩
    · have size : 2 ^ (52 + (exponent + 1074).toNat + 1) < 2 ^ (1023 + 1074) := by
        refine lt_of_le_of_lt ?_ bound
        rw [magnitudeUnits, pow_succ, pow_add, Nat.mul_comm, ← full]
        exact Nat.mul_le_mul_left 2 (Nat.mul_le_mul_right _ (Nat.log2_self_le positive))
      have := (Nat.pow_lt_pow_iff_right (by norm_num)).mp size
      omega
    · have next : (exponent + -51 + (52 : ℕ) + 1074).toNat = (exponent + 1074).toNat + 1 := by omega
      rw [Nat.mul_div_cancel _ (Nat.two_pow_pos 52), magnitudeUnits, magnitudeUnits, next, pow_succ]
      ring
  · refine ⟨51, by omega, fun _ => by norm_num,
      (pow_dvd_pow 2 (by norm_num)).trans (dvd_mul_left _ _), ?_⟩
    have twice : mantissa * 2 ^ 52 / 2 ^ 51 = 2 * mantissa := by omega
    rw [twice, magnitudeUnits, magnitudeUnits, Nat.mul_assoc]
    rfl

/-- What a mantissa is divided to before it is rounded, and under which exponent. -/
private theorem divCore_two {mantissa : ℕ} {exponent lowered : ℤ}
    (canonical : Canonical mantissa exponent) (positive : mantissa ≠ 0)
    (lowest : max (mantissa.log2 + exponent - 54) (-1074) = lowered) :
    ∃ accuracy, divCore Format.binary64 mantissa exponent (2 ^ 52) (-51) =
      (mantissa * 2 ^ (exponent + 51 - lowered).toNat / 2 ^ 52, lowered, accuracy) := by
  have target : min (exponent - -51) (Format.binary64.targetExponent
      (totalExponent mantissa exponent - totalExponent (2 ^ 52) (-51))) = lowered := by
    have short := (Nat.log2_lt positive).mpr canonical.narrow
    have low := canonical.low
    simp only [Format.targetExponent, totalExponent, Format.mantissaBits, Format.minExponent,
      Nat.log2_two_pow]
    omega
  rw [divCore, target, Nat.shiftLeft_eq, sub_neg_eq_add]
  exact ⟨_, rfl⟩

/-- A quotient that is half of a magnitude, but for what is lost in the last place, once its own
last places have been dropped. -/
private structure Halves (mantissa : ℕ) (exponent : ℤ) (quotient : ℕ) (lowered : ℤ) (places : ℕ) :
    Prop where
  target : max (quotient.log2 + lowered - 52) (-1074) = lowered + places
  high : lowered + places ≤ 970
  full : quotient ≠ 0 ∨ lowered + places = -1074
  small : 2 * magnitudeUnits (quotient / 2 ^ places) (lowered + places) ≤
    magnitudeUnits mantissa exponent

/-- Nothing can be shifted into the lowest exponent, so that the last place is lost. -/
private theorem halves_lowest {mantissa : ℕ} (narrow : mantissa < 2 ^ 53) :
    Halves mantissa (-1074) (mantissa / 2) (-1074) 0 where
  target := by
    have short : (mantissa / 2).log2 ≤ 52 := by
      rcases eq_or_ne (mantissa / 2) 0 with zero | nonzero
      · rw [zero]
        decide
      · exact Nat.lt_succ_iff.mp ((Nat.log2_lt nonzero).mpr (by omega))
    omega
  high := by norm_num
  full := .inr (by norm_num)
  small := by
    rw [pow_zero, Nat.div_one, Nat.cast_zero, add_zero, magnitudeUnits, magnitudeUnits,
      ← Nat.mul_assoc]
    exact Nat.mul_le_mul_right _ (by omega)

/-- One place above the lowest exponent the mantissa is kept. -/
private theorem halves_kept {mantissa : ℕ} (full : mantissa.log2 = 52) :
    Halves mantissa (-1073) mantissa (-1074) 0 where
  target := by omega
  high := by norm_num
  full := .inl (by rintro rfl; contradiction)
  small := by
    rw [pow_zero, Nat.div_one, magnitudeUnits, magnitudeUnits]
    exact (by ring : 2 * (mantissa * 2 ^ 0) = mantissa * 2 ^ 1).le

/-- Above that the quotient has one place more than the mantissa, which is dropped again. -/
private theorem halves_doubled {mantissa : ℕ} {exponent : ℤ} (full : mantissa.log2 = 52)
    (low : -1072 ≤ exponent) (high : exponent ≤ 971) :
    Halves mantissa exponent (mantissa <<< 1) (exponent - 2) 1 where
  target := by
    have positive : mantissa ≠ 0 := by rintro rfl; contradiction
    rw [log2_shiftLeft positive]
    omega
  high := by
    push_cast
    omega
  full := by
    refine .inl fun zero => ?_
    rw [Nat.shiftLeft_eq, Nat.mul_eq_zero] at zero
    rcases zero with rfl | power
    · contradiction
    · contradiction
  small := by
    have next : (exponent + 1074).toNat = (exponent - 2 + (1 : ℕ) + 1074).toNat + 1 := by omega
    rw [Nat.shiftLeft_eq, Nat.mul_div_cancel _ (Nat.two_pow_pos 1), magnitudeUnits,
      magnitudeUnits, next, pow_succ]
    exact le_of_eq (by ring)

/-- Half of a magnitude, as it is divided and then rounded to its target exponent. -/
private theorem exists_halves {mantissa : ℕ} {exponent : ℤ}
    (canonical : Canonical mantissa exponent) (positive : mantissa ≠ 0) :
    ∃ quotient lowered accuracy places,
      divCore Format.binary64 mantissa exponent (2 ^ 52) (-51) = (quotient, lowered, accuracy) ∧
      Halves mantissa exponent quotient lowered places := by
  have low := canonical.low
  have narrow := canonical.narrow
  have short := (Nat.log2_lt positive).mpr narrow
  rcases eq_or_ne exponent (-1074) with rfl | above
  · have lowest : max (mantissa.log2 + (-1074 : ℤ) - 54) (-1074) = -1074 := by omega
    obtain ⟨accuracy, core⟩ := divCore_two canonical positive lowest
    have halved : mantissa * 2 ^ (-1074 + 51 - -1074 : ℤ).toNat / 2 ^ 52 = mantissa / 2 := by
      change mantissa * 2 ^ 51 / 2 ^ 52 = mantissa / 2
      omega
    rw [halved] at core
    exact ⟨_, _, _, _, core, halves_lowest narrow⟩
  have full : mantissa.log2 = 52 := (canonical.log2_cases positive).resolve_right (by omega)
  rcases eq_or_ne exponent (-1073) with rfl | above'
  · have lowest : max (mantissa.log2 + (-1073 : ℤ) - 54) (-1074) = -1074 := by omega
    obtain ⟨accuracy, core⟩ := divCore_two canonical positive lowest
    have kept : mantissa * 2 ^ (-1073 + 51 - -1074 : ℤ).toNat / 2 ^ 52 = mantissa :=
      Nat.mul_div_cancel _ (Nat.two_pow_pos 52)
    rw [kept] at core
    exact ⟨_, _, _, _, core, halves_kept full⟩
  · have lowest : max (mantissa.log2 + exponent - 54) (-1074) = exponent - 2 := by omega
    obtain ⟨accuracy, core⟩ := divCore_two canonical positive lowest
    have doubled : mantissa * 2 ^ (exponent + 51 - (exponent - 2)).toNat / 2 ^ 52 =
        mantissa <<< 1 := by
      have places : (exponent + 51 - (exponent - 2)).toNat = 53 := by omega
      rw [places, Nat.shiftLeft_eq]
      omega
    rw [doubled] at core
    exact ⟨_, _, _, _, core, halves_doubled full (by omega) canonical.high⟩

private theorem abs_sign_apply (sign : Sign) (a : ℤ) : |sign.apply a| = |a| := by
  cases sign with
  | negative => exact abs_neg a
  | positive => rfl

/-- Twice a finite number. -/
theorem double_rounds (wellFormed : WellFormed a) (finite : a.isFinite = true)
    (bound : |2 * unpackedUnits a| < safeUnits) :
    Rounds (UnpackedFloat.mul Format.binary64 a two) (2 * unpackedUnits a) := by
  obtain ⟨sign, rfl, units⟩ | ⟨sign, mantissa, exponent, positive, rfl, canonical, units⟩ :=
    zero_or_canonical wellFormed finite
  · rw [units, mul_zero]
    cases sign <;> exact rounds_zero _
  · have double : 2 * sign.apply (magnitudeUnits mantissa exponent) =
        sign.apply ((2 * magnitudeUnits mantissa exponent : ℕ) : ℤ) := by
      cases sign <;> rw [Sign.apply, Sign.apply] <;> push_cast <;> ring
    rw [units, double] at bound ⊢
    rw [abs_sign_apply, Nat.abs_cast, Nat.cast_lt] at bound
    obtain ⟨places, target, high, _, same⟩ := exists_places_double canonical positive.ne'
    have rounds := roundWithAccuracy_rounds_floor sign .exact target (high bound)
      (.inl (Nat.mul_ne_zero positive.ne' (Nat.two_pow_pos 52).ne'))
    rw [same] at rounds
    cases sign <;> exact rounds

/-- Half of a finite number. -/
theorem half_rounds (wellFormed : WellFormed a) (finite : a.isFinite = true) :
    ∃ half, Rounds (UnpackedFloat.div Format.binary64 a two) half ∧
      2 * |half| ≤ |unpackedUnits a| := by
  obtain ⟨sign, rfl, units⟩ | ⟨sign, mantissa, exponent, positive, rfl, canonical, units⟩ :=
    zero_or_canonical wellFormed finite
  · refine ⟨0, ?_, by simp⟩
    cases sign <;> exact rounds_zero _
  · obtain ⟨quotient, lowered, accuracy, places, core, halves⟩ :=
      exists_halves canonical positive.ne'
    have divided : UnpackedFloat.div Format.binary64
        (.finite sign mantissa exponent positive) two =
          roundWithAccuracy Format.binary64 sign quotient lowered accuracy := by
      rw [two, UnpackedFloat.div, core]
      cases sign <;> rfl
    have rounds :=
      roundWithAccuracy_rounds_floor sign accuracy halves.target halves.high halves.full
    refine ⟨_, divided ▸ rounds, ?_⟩
    rw [units, abs_sign_apply, abs_sign_apply, Nat.abs_cast, Nat.abs_cast]
    exact_mod_cast halves.small

/-- The number nearest to one part in 10⁹. -/
def billionth : UnpackedFloat := .finite .positive 4835703278458517 (-82) (by norm_num)

/-- A billionth of a finite number never overflows. -/
theorem billionth_rounds (wellFormed : WellFormed a) (finite : a.isFinite = true) :
    ∃ part, Rounds (UnpackedFloat.mul Format.binary64 a billionth) part := by
  obtain ⟨sign, rfl, _⟩ | ⟨sign, mantissa, exponent, positive, rfl, canonical, _⟩ :=
    zero_or_canonical wellFormed finite
  · exact ⟨0, rounds_zero _⟩
  · have product : mantissa * 4835703278458517 ≠ 0 := Nat.mul_ne_zero positive.ne' (by norm_num)
    have long : 52 ≤ (mantissa * 4835703278458517).log2 := by
      refine (Nat.le_log2 product).mpr ?_
      have := Nat.mul_le_mul_right 4835703278458517 (Nat.one_le_iff_ne_zero.mpr positive.ne')
      omega
    have short : (mantissa * 4835703278458517).log2 < 106 := by
      refine (Nat.log2_lt product).mpr ?_
      have := Nat.mul_lt_mul_of_pos_right canonical.narrow (by norm_num : 0 < 4835703278458517)
      omega
    obtain ⟨places, target⟩ := Int.le.dest (show exponent + -82 ≤
      max ((mantissa * 4835703278458517).log2 + (exponent + -82) - 52) (-1074) by omega)
    have high := canonical.high
    exact ⟨_, roundWithAccuracy_rounds_floor (sign * Sign.positive) .exact target.symm (by omega)
      (.inl product)⟩

/-- The magnitude of a finite number. -/
theorem unpackedUnits_abs (wellFormed : WellFormed a) (finite : a.isFinite = true) :
    WellFormed a.abs ∧ a.abs.isFinite = true ∧ unpackedUnits a.abs = |unpackedUnits a| := by
  obtain ⟨sign, rfl, units⟩ | ⟨sign, mantissa, exponent, positive, rfl, canonical, units⟩ :=
    zero_or_canonical wellFormed finite
  · rw [units]
    exact ⟨trivial, rfl, rfl⟩
  · rw [units, abs_sign_apply, Nat.abs_cast]
    exact ⟨canonical, rfl, rfl⟩

/-! ## Order -/

theorem magnitudeUnits_pos {mantissa : ℕ} (positive : 0 < mantissa) (exponent : ℤ) :
    0 < magnitudeUnits mantissa exponent := Nat.mul_pos positive (Nat.two_pow_pos _)

/-- Of two magnitudes that are read from words the one with the lower exponent is smaller. -/
private theorem magnitudeUnits_lt {mantissa mantissa' : ℕ} {exponent exponent' : ℤ}
    (canonical : Canonical mantissa exponent) (canonical' : Canonical mantissa' exponent')
    (lower : exponent < exponent') :
    magnitudeUnits mantissa exponent < magnitudeUnits mantissa' exponent' := by
  have low := canonical.low
  have full : 2 ^ 52 ≤ mantissa' := canonical'.full.resolve_right (by omega)
  obtain ⟨steps, step⟩ : ∃ steps, (exponent' + 1074).toNat = (exponent + 1074).toNat + 1 + steps :=
    Nat.exists_eq_add_of_le (by omega)
  calc mantissa * 2 ^ (exponent + 1074).toNat
    _ < 2 ^ 53 * 2 ^ (exponent + 1074).toNat :=
        Nat.mul_lt_mul_of_pos_right canonical.narrow (Nat.two_pow_pos _)
    _ = 2 ^ 52 * 2 ^ ((exponent + 1074).toNat + 1) := by ring
    _ ≤ mantissa' * 2 ^ (exponent' + 1074).toNat :=
        Nat.mul_le_mul full (Nat.pow_le_pow_right (by norm_num) (by omega))

/-- Magnitudes are compared by their exponents first. -/
private theorem compare_magnitudeUnits {mantissa mantissa' : ℕ} {exponent exponent' : ℤ}
    (canonical : Canonical mantissa exponent) (canonical' : Canonical mantissa' exponent') :
    (compare exponent exponent').then (compare mantissa mantissa') =
      compare (magnitudeUnits mantissa exponent) (magnitudeUnits mantissa' exponent') := by
  rcases lt_trichotomy exponent exponent' with lower | rfl | higher
  · rw [Int.compare_eq_lt.mpr lower,
      Nat.compare_eq_lt.mpr (magnitudeUnits_lt canonical canonical' lower)]
    rfl
  · rw [Int.compare_eq_eq.mpr rfl, magnitudeUnits, magnitudeUnits]
    have unit : 0 < 2 ^ (exponent + 1074).toNat := Nat.two_pow_pos _
    rcases lt_trichotomy mantissa mantissa' with less | rfl | greater
    · rw [Nat.compare_eq_lt.mpr less,
        Nat.compare_eq_lt.mpr (Nat.mul_lt_mul_of_pos_right less unit)]
      rfl
    · rw [Nat.compare_eq_eq.mpr rfl, Nat.compare_eq_eq.mpr rfl]
      rfl
    · rw [Nat.compare_eq_gt.mpr greater,
        Nat.compare_eq_gt.mpr (Nat.mul_lt_mul_of_pos_right greater unit)]
      rfl
  · rw [Int.compare_eq_gt.mpr higher,
      Nat.compare_eq_gt.mpr (magnitudeUnits_lt canonical' canonical higher)]
    rfl

private theorem compare_natCast (x y : ℕ) : compare (x : ℤ) y = compare x y ∧
    compare (-(x : ℤ)) (-y) = (compare x y).swap := by
  rcases lt_trichotomy x y with less | rfl | greater
  · rw [Nat.compare_eq_lt.mpr less]
    exact ⟨Int.compare_eq_lt.mpr (by omega), Int.compare_eq_gt.mpr (by omega)⟩
  · rw [Nat.compare_eq_eq.mpr rfl]
    exact ⟨Int.compare_eq_eq.mpr rfl, Int.compare_eq_eq.mpr rfl⟩
  · rw [Nat.compare_eq_gt.mpr greater]
    exact ⟨Int.compare_eq_gt.mpr (by omega), Int.compare_eq_lt.mpr (by omega)⟩

/-- Finite numbers are compared as the numbers of units that they are. -/
theorem compare_eq (wellFormed : WellFormed a) (finite : a.isFinite = true)
    (wellFormed' : WellFormed b) (finite' : b.isFinite = true) :
    a.compare b = some (compare (unpackedUnits a) (unpackedUnits b)) := by
  obtain ⟨sign, rfl, units⟩ | ⟨sign, mantissa, exponent, positive, rfl, canonical, units⟩ :=
    zero_or_canonical wellFormed finite <;>
  obtain ⟨sign', rfl, units'⟩ | ⟨sign', mantissa', exponent', positive', rfl, canonical', units'⟩ :=
    zero_or_canonical wellFormed' finite'
  · rw [units, units']
    rfl
  · have magnitude := magnitudeUnits_pos positive' exponent'
    rw [units, units']
    cases sign' with
    | negative =>
      rw [Sign.apply, Int.compare_eq_gt.mpr (by omega)]
      rfl
    | positive =>
      rw [Sign.apply, Int.compare_eq_lt.mpr (by omega)]
      rfl
  · have magnitude := magnitudeUnits_pos positive exponent
    rw [units, units']
    cases sign with
    | negative =>
      rw [Sign.apply, Int.compare_eq_lt.mpr (by omega)]
      rfl
    | positive =>
      rw [Sign.apply, Int.compare_eq_gt.mpr (by omega)]
      rfl
  · have magnitude := magnitudeUnits_pos positive exponent
    have magnitude' := magnitudeUnits_pos positive' exponent'
    have order := compare_magnitudeUnits canonical canonical'
    rw [units, units']
    cases sign <;> cases sign' <;> rw [Sign.apply, Sign.apply]
    case negative.negative =>
      rw [(compare_natCast _ _).2, ← order]
      rfl
    case negative.positive =>
      rw [Int.compare_eq_lt.mpr (by omega)]
      rfl
    case positive.negative =>
      rw [Int.compare_eq_gt.mpr (by omega)]
      rfl
    case positive.positive =>
      rw [(compare_natCast _ _).1, ← order]
      rfl

/-- A finite number lies between the two infinities. -/
theorem compare_infinity (finite : a.isFinite = true) :
    (a.compare (.infinity .positive) = some .lt ∧
        UnpackedFloat.compare (.infinity .positive) a = some .gt) ∧
      a.compare (.infinity .negative) = some .gt ∧
        UnpackedFloat.compare (.infinity .negative) a = some .lt := by
  cases a with
  | notANumber => contradiction
  | infinity sign => contradiction
  | zero sign => exact ⟨⟨rfl, rfl⟩, rfl, rfl⟩
  | finite sign mantissa exponent positive => cases sign <;> exact ⟨⟨rfl, rfl⟩, rfl, rfl⟩

/-- How many times the smallest positive number the largest finite one is. -/
def largestUnits : ℕ := magnitudeUnits (2 ^ 53 - 1) 971

private theorem Canonical.magnitudeUnits_le {mantissa : ℕ} {exponent : ℤ}
    (canonical : Canonical mantissa exponent) :
    magnitudeUnits mantissa exponent ≤ largestUnits := by
  have places : (exponent + 1074).toNat ≤ (971 + 1074 : ℤ).toNat :=
    Int.toNat_le_toNat (Int.add_le_add_right canonical.high _)
  rw [largestUnits, magnitudeUnits, magnitudeUnits]
  gcongr
  · exact Nat.le_sub_one_of_lt canonical.narrow
  · norm_num

/-- No finite number is larger than the largest. -/
theorem abs_unpackedUnits_le (wellFormed : WellFormed a) (finite : a.isFinite = true) :
    |unpackedUnits a| ≤ largestUnits := by
  obtain ⟨sign, rfl, units⟩ | ⟨sign, mantissa, exponent, positive, rfl, canonical, units⟩ :=
    zero_or_canonical wellFormed finite
  · rw [units, abs_zero]
    exact Int.natCast_nonneg _
  · rw [units, abs_sign_apply, Nat.abs_cast, Nat.cast_le]
    exact canonical.magnitudeUnits_le

/-- Where a number stands in the order: an infinity is one unit beyond the largest finite number. -/
def level : UnpackedFloat → ℤ
  | .infinity sign => sign.apply (largestUnits + 1)
  | number => unpackedUnits number

theorem level_of_isFinite (finite : a.isFinite = true) : level a = unpackedUnits a := by
  cases a with
  | notANumber => contradiction
  | infinity sign => contradiction
  | zero sign => rfl
  | finite sign mantissa exponent positive => rfl

theorem finite_or_infinity (number : a.isNaN = false) :
    a.isFinite = true ∨ ∃ sign, a = .infinity sign := by
  cases a with
  | notANumber => contradiction
  | infinity sign => exact .inr ⟨sign, rfl⟩
  | zero sign => exact .inl rfl
  | finite sign mantissa exponent positive => exact .inl rfl

/-- All numbers are compared by their levels. -/
theorem compare_level (wellFormed : WellFormed a) (number : a.isNaN = false)
    (wellFormed' : WellFormed b) (number' : b.isNaN = false) :
    a.compare b = some (compare (level a) (level b)) := by
  rcases finite_or_infinity number with finite | ⟨sign, rfl⟩ <;>
    rcases finite_or_infinity number' with finite' | ⟨sign', rfl⟩
  · rw [level_of_isFinite finite, level_of_isFinite finite']
    exact compare_eq wellFormed finite wellFormed' finite'
  · have bound := abs_le.mp (abs_unpackedUnits_le wellFormed finite)
    obtain ⟨⟨above, _⟩, below, _⟩ := compare_infinity finite
    rw [level_of_isFinite finite]
    cases sign' with
    | negative => rw [below, level, Sign.apply, Int.compare_eq_gt.mpr (by omega)]
    | positive => rw [above, level, Sign.apply, Int.compare_eq_lt.mpr (by omega)]
  · have bound := abs_le.mp (abs_unpackedUnits_le wellFormed' finite')
    obtain ⟨⟨_, above⟩, _, below⟩ := compare_infinity finite'
    rw [level_of_isFinite finite']
    cases sign with
    | negative => rw [below, level, Sign.apply, Int.compare_eq_lt.mpr (by omega)]
    | positive => rw [above, level, Sign.apply, Int.compare_eq_gt.mpr (by omega)]
  · cases sign <;> cases sign' <;> simp only [level, Sign.apply]
    case negative.negative =>
      rw [Int.compare_eq_eq.mpr rfl]
      rfl
    case negative.positive =>
      rw [Int.compare_eq_lt.mpr (by omega)]
      rfl
    case positive.negative =>
      rw [Int.compare_eq_gt.mpr (by omega)]
      rfl
    case positive.positive =>
      rw [Int.compare_eq_eq.mpr rfl]
      rfl

/-- Only infinity is above all finite numbers. -/
theorem eq_infinity_of_level (wellFormed : WellFormed a) (number : a.isNaN = false)
    (above : level (.infinity .positive) ≤ level a) : a = .infinity .positive := by
  rw [level, Sign.apply] at above
  rcases finite_or_infinity number with finite | ⟨sign, rfl⟩
  · have bound := abs_le.mp (abs_unpackedUnits_le wellFormed finite)
    rw [level_of_isFinite finite] at above
    omega
  · cases sign with
    | negative =>
      rw [level, Sign.apply] at above
      omega
    | positive => rfl

/-! ## Beyond the range

Rounding knows no largest number: what is too large is found out when it is packed into a word.
Until then a double is exact, and no sum falls below a summand when the other one is not negative.
-/

/-- A number as rounding leaves it. -/
def Unbounded : UnpackedFloat → Prop
  | .finite _ mantissa exponent _ => Trimmed mantissa exponent
  | _ => True

theorem WellFormed.unbounded (wellFormed : WellFormed a) : Unbounded a := by
  cases a with
  | finite sign mantissa exponent positive =>
    exact ⟨wellFormed.narrow, wellFormed.low, wellFormed.full⟩
  | notANumber => trivial
  | infinity sign => trivial
  | zero sign => trivial

private theorem unbounded_of_trimmed (sign : Sign) {mantissa : ℕ} {exponent : ℤ}
    (trimmed : Trimmed mantissa exponent) :
    Unbounded (if vanishes : mantissa = 0 then .zero sign
      else .finite sign mantissa exponent (Nat.pos_of_ne_zero vanishes)) ∧
    (if vanishes : mantissa = 0 then UnpackedFloat.zero sign
      else .finite sign mantissa exponent (Nat.pos_of_ne_zero vanishes)).isFinite = true := by
  split_ifs with vanishes
  · exact ⟨trivial, rfl⟩
  · exact ⟨trimmed, rfl⟩

/-- Twice a finite number is exact. -/
theorem double_unbounded (wellFormed : WellFormed a) (finite : a.isFinite = true) :
    Unbounded (UnpackedFloat.mul Format.binary64 a two) ∧
      unpackedUnits (UnpackedFloat.mul Format.binary64 a two) = 2 * unpackedUnits a := by
  obtain ⟨sign, rfl, units⟩ | ⟨sign, mantissa, exponent, positive, rfl, canonical, units⟩ :=
    zero_or_canonical wellFormed finite
  · rw [units]
    exact ⟨trivial, rfl⟩
  · obtain ⟨places, target, _, divides, same⟩ := exists_places_double canonical positive.ne'
    obtain ⟨rounded, kept, carried, _, _, exactly, trimmed, _, same', result⟩ :=
      exists_trimmed (sign * .positive) .exact target
        (.inl (Nat.mul_ne_zero positive.ne' (Nat.two_pow_pos 52).ne'))
    have product : UnpackedFloat.mul Format.binary64
        (.finite sign mantissa exponent positive) two = _ := result
    rw [exactly rfl divides, same] at same'
    rw [product, units_of_canonical, same', units]
    refine ⟨(unbounded_of_trimmed _ trimmed).1, ?_⟩
    cases sign with
    | negative =>
      change -((2 * magnitudeUnits mantissa exponent : ℕ) : ℤ) = 2 * -_
      push_cast
      ring
    | positive => exact Nat.cast_mul ..

/-- Dropping places under the target exponent does not fall below a number that has no more places
itself. -/
private theorem le_div_two_pow {mantissa mantissa' places : ℕ} {exponent exponent' : ℤ}
    (canonical : Canonical mantissa exponent) (positive : mantissa' ≠ 0) (low : -1074 ≤ exponent')
    (target : max (mantissa'.log2 + exponent' - 52) (-1074) = exponent' + places)
    (above : magnitudeUnits mantissa exponent ≤ magnitudeUnits mantissa' exponent') :
    magnitudeUnits mantissa exponent ≤
      magnitudeUnits (mantissa' / 2 ^ places) (exponent' + places) := by
  have split : (exponent' + places + 1074).toNat = places + (exponent' + 1074).toNat := by omega
  rcases le_or_gt (exponent' + places) exponent with finer | coarser
  · -- The number is a multiple of the last place that is kept.
    obtain ⟨steps, step⟩ : ∃ steps : ℕ, (exponent + 1074).toNat =
        steps + (exponent' + places + 1074).toNat :=
      ⟨(exponent - (exponent' + places)).toNat, by omega⟩
    rw [magnitudeUnits, step, pow_add, ← mul_assoc] at above ⊢
    refine Nat.mul_le_mul_right _ ?_
    rw [Nat.le_div_iff_mul_le (Nat.two_pow_pos places)]
    rw [split, pow_add, ← mul_assoc] at above
    exact Nat.le_of_mul_le_mul_right above (Nat.two_pow_pos _)
  · -- All 53 bits are kept, under a higher exponent than that of the number.
    have lower := canonical.low
    have full : 2 ^ 52 ≤ mantissa' / 2 ^ places := by
      rw [Nat.le_div_iff_mul_le (Nat.two_pow_pos places), ← pow_add]
      refine le_trans (Nat.pow_le_pow_right (by norm_num) ?_) (Nat.log2_self_le positive)
      omega
    calc magnitudeUnits mantissa exponent
      _ ≤ 2 ^ 53 * 2 ^ (exponent + 1074).toNat :=
          Nat.mul_le_mul_right _ canonical.narrow.le
      _ = 2 ^ 52 * 2 ^ ((exponent + 1074).toNat + 1) := by ring
      _ ≤ magnitudeUnits (mantissa' / 2 ^ places) (exponent' + places) :=
          Nat.mul_le_mul full (Nat.pow_le_pow_right (by norm_num) (by omega))

/-- A mantissa as it is rounded to its target exponent, however high that is. -/
private theorem round_unbounded (sign : Sign) {mantissa : ℕ} {exponent : ℤ}
    (positive : mantissa ≠ 0) (low : -1074 ≤ exponent) :
    Unbounded (UnpackedFloat.round Format.binary64 sign mantissa exponent) ∧
      (UnpackedFloat.round Format.binary64 sign mantissa exponent).isFinite = true := by
  obtain ⟨mantissa', exponent', positive', low', wide, _, result⟩ :=
    exists_round_eq sign positive low
  obtain ⟨places, target⟩ := Int.le.dest wide
  obtain ⟨_, _, _, _, _, _, trimmed, _, _, result'⟩ :=
    exists_trimmed sign .exact target.symm (.inl positive')
  rw [result, result']
  exact unbounded_of_trimmed sign trimmed

/-- Rounding a mantissa does not fall below a number that needs no rounding. -/
private theorem le_round {mantissa mantissa' : ℕ} {exponent exponent' : ℤ}
    (canonical : Canonical mantissa exponent) (positive : mantissa' ≠ 0) (low : -1074 ≤ exponent')
    (above : magnitudeUnits mantissa exponent ≤ magnitudeUnits mantissa' exponent') :
    (magnitudeUnits mantissa exponent : ℤ) ≤
      unpackedUnits (UnpackedFloat.round Format.binary64 .positive mantissa' exponent') := by
  obtain ⟨shifted, lowered, positive', low', wide, same, result⟩ :=
    exists_round_eq .positive positive low
  obtain ⟨places, target⟩ := Int.le.dest wide
  obtain ⟨rounded, kept, carried, floor, _, _, _, _, same', result'⟩ :=
    exists_trimmed .positive .exact target.symm (.inl positive')
  rw [← same] at above
  rw [result, result', units_of_canonical, same', Sign.apply, Nat.cast_le]
  exact (le_div_two_pow canonical positive' low' target.symm above).trans
    (Nat.mul_le_mul_right _ floor)

/-- A signed mantissa as it is rounded to its target exponent, however high that is. -/
private theorem normalize_unbounded (mantissa : ℤ) {exponent : ℤ} (zeroSign : Sign)
    (low : -1074 ≤ exponent) :
    Unbounded (UnpackedFloat.normalize Format.binary64 mantissa exponent zeroSign) ∧
      (UnpackedFloat.normalize Format.binary64 mantissa exponent zeroSign).isFinite = true := by
  rw [UnpackedFloat.normalize]
  rcases lt_trichotomy mantissa 0 with negative | rfl | positive
  · rw [Int.compare_eq_lt.mpr negative]
    exact round_unbounded .negative (by omega) low
  · rw [Int.compare_eq_eq.mpr rfl]
    exact ⟨trivial, rfl⟩
  · rw [Int.compare_eq_gt.mpr positive]
    exact round_unbounded .positive (by omega) low

/-- Rounding a positive mantissa does not fall below a number that needs no rounding. -/
private theorem le_normalize {mantissa : ℕ} {exponent : ℤ} (canonical : Canonical mantissa exponent)
    (positive : 0 < mantissa) (sum : ℤ) {lowest : ℤ} (zeroSign : Sign) (low : -1074 ≤ lowest)
    (above : (magnitudeUnits mantissa exponent : ℤ) ≤ sum * 2 ^ (lowest + 1074).toNat) :
    (magnitudeUnits mantissa exponent : ℤ) ≤
      unpackedUnits (UnpackedFloat.normalize Format.binary64 sum lowest zeroSign) := by
  have some : 0 < sum := by
    refine pos_of_mul_pos_left (lt_of_lt_of_le ?_ above) (by positivity)
    exact_mod_cast Nat.mul_pos positive (Nat.two_pow_pos _)
  obtain ⟨natural, rfl⟩ := Int.eq_ofNat_of_zero_le some.le
  rw [UnpackedFloat.normalize, Int.compare_eq_gt.mpr some]
  exact le_round canonical (by omega) low (by rw [magnitudeUnits]; exact_mod_cast above)

/-- A sum of finite numbers, however large it is. -/
theorem add_unbounded (wellFormed : WellFormed a) (finite : a.isFinite = true)
    (wellFormed' : WellFormed b) (finite' : b.isFinite = true) :
    Unbounded (UnpackedFloat.add Format.binary64 a b) ∧
      (UnpackedFloat.add Format.binary64 a b).isFinite = true := by
  obtain ⟨sign, rfl, _⟩ | ⟨sign, mantissa, exponent, positive, rfl, canonical, _⟩ :=
    zero_or_canonical wellFormed finite
  · obtain ⟨sign', rfl, _⟩ | ⟨sign', mantissa', exponent', positive', rfl, _⟩ :=
      zero_or_canonical wellFormed' finite'
    · cases sign <;> cases sign' <;> exact ⟨trivial, rfl⟩
    · exact ⟨wellFormed'.unbounded, rfl⟩
  · obtain ⟨sign', rfl, _⟩ | ⟨sign', mantissa', exponent', positive', rfl, canonical', _⟩ :=
      zero_or_canonical wellFormed' finite'
    · exact ⟨wellFormed.unbounded, rfl⟩
    · exact normalize_unbounded _ .positive (le_min canonical.low canonical'.low)

/-- An undefined result stays undefined. -/
theorem notANumber_add (b : UnpackedFloat) :
    UnpackedFloat.add Format.binary64 .notANumber b = .notANumber := by
  cases b <;> rfl

/-- An infinity absorbs what is added to it. -/
theorem infinity_add (sign : Sign) (finite : b.isFinite = true) :
    UnpackedFloat.add Format.binary64 (.infinity sign) b = .infinity sign := by
  cases b with
  | notANumber => contradiction
  | infinity sign => contradiction
  | zero sign => rfl
  | finite sign mantissa exponent positive => rfl

/-- Both sides of a finite difference are finite. -/
theorem isFinite_of_sub (difference : (UnpackedFloat.sub Format.binary64 a b).isFinite = true) :
    a.isFinite = true ∧ b.isFinite = true := by
  cases a with
  | notANumber => cases b <;> contradiction
  | infinity sign =>
    cases b with
    | infinity sign' =>
      rw [UnpackedFloat.sub] at difference
      split_ifs at difference <;> contradiction
    | notANumber | zero | finite => contradiction
  | zero | finite =>
    cases b with
    | notANumber | infinity => contradiction
    | zero | finite => exact ⟨rfl, rfl⟩

/-- A sum is not below its first summand if neither is negative. -/
theorem unpackedUnits_le_add (wellFormed : WellFormed a) (finite : a.isFinite = true)
    (wellFormed' : WellFormed b) (finite' : b.isFinite = true)
    (nonneg : 0 ≤ unpackedUnits a) (nonneg' : 0 ≤ unpackedUnits b) :
    unpackedUnits a ≤ unpackedUnits (UnpackedFloat.add Format.binary64 a b) := by
  obtain ⟨sign, rfl, units⟩ | ⟨sign, mantissa, exponent, positive, rfl, canonical, units⟩ :=
    zero_or_canonical wellFormed finite
  · obtain ⟨sign', rfl, units'⟩ | ⟨sign', mantissa', exponent', positive', rfl, _⟩ :=
      zero_or_canonical wellFormed' finite'
    · cases sign <;> cases sign' <;> exact le_rfl
    · rw [units]
      exact nonneg'
  · obtain ⟨sign', rfl, units'⟩ |
      ⟨sign', mantissa', exponent', positive', rfl, canonical', units'⟩ :=
      zero_or_canonical wellFormed' finite'
    · exact le_rfl
    · have low : -1074 ≤ min exponent exponent' := le_min canonical.low canonical'.low
      have sum := congrArg₂ (· + ·)
        (apply_decreaseExponent sign mantissa low (min_le_left exponent exponent'))
        (apply_decreaseExponent sign' mantissa' low (min_le_right exponent exponent'))
      rw [← units, ← units', ← add_mul] at sum
      obtain rfl : sign = .positive := by
        cases sign with
        | negative =>
          have size : 0 < magnitudeUnits mantissa exponent :=
            Nat.mul_pos positive (Nat.two_pow_pos _)
          rw [units, Sign.apply] at nonneg
          omega
        | positive => rfl
      rw [units] at nonneg sum ⊢
      exact le_normalize canonical positive _ .positive low
        (sum ▸ le_add_of_nonneg_right nonneg')

end LinearAssignment.Binary64
