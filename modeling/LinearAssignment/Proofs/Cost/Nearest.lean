import LinearAssignment.Proofs.Cost.Binary64

/-! # Which rationals are rounded to a number

A rational is rounded to the nearest number, and to the one with the even mantissa if it lies
halfway between two. What is rounded to a number is therefore an interval around it, which reaches
half a unit of its last place up and down, and only a quarter down from a power of two. Products and
quotients of numbers are computed with enough places for that, whatever their mantissas are.
-/

namespace LinearAssignment.Binary64

open Float.Model Float.Model.UnpackedFloat

/-! ## Between two mantissas -/

/-- An extended mantissa says where a rational lies between a mantissa and the next one. -/
structure Describes (extended : ExtendedMantissa) (position : ℚ) : Prop where
  floor : (extended.mantissa : ℚ) ≤ position
  ceil : position < extended.mantissa + 1
  round_iff : extended.roundBit = true ↔ extended.mantissa + 1 / 2 ≤ position
  sticky_iff : extended.stickyBit = true ↔
    position ≠ extended.mantissa ∧ position ≠ extended.mantissa + 1 / 2

variable {extended : ExtendedMantissa} {position : ℚ}

namespace Describes

/-- Behind the middle or strictly inside one half is anywhere but at the mantissa itself. -/
private theorem ne_mantissa_iff (described : Describes extended position) :
    (extended.roundBit || extended.stickyBit) = true ↔ position ≠ extended.mantissa := by
  rw [Bool.or_eq_true, described.round_iff, described.sticky_iff]
  constructor
  · rintro (behind | ⟨other, _⟩)
    · intro eq
      linarith
    · exact other
  · intro other
    rcases le_or_gt ((extended.mantissa : ℚ) + 1 / 2) position with behind | before
    · exact .inl behind
    · exact .inr ⟨other, before.ne⟩

theorem shiftRightOne (described : Describes extended position) :
    Describes extended.shiftRightOne (position / 2) := by
  have floor := described.floor
  have ceil := described.ceil
  have inside := described.ne_mantissa_iff
  have parts := Nat.div_add_mod extended.mantissa 2
  have halved : (extended.shiftRightOne.mantissa : ℚ) = ((extended.mantissa / 2 : ℕ) : ℚ) := rfl
  have cast : (extended.mantissa : ℚ) =
      2 * ((extended.mantissa / 2 : ℕ) : ℚ) + ((extended.mantissa % 2 : ℕ) : ℚ) := by
    exact_mod_cast parts.symm
  rcases Nat.mod_two_eq_zero_or_one extended.mantissa with even | odd
  · rw [even, Nat.cast_zero, add_zero] at cast
    refine ⟨by rw [halved]; linarith, by rw [halved]; linarith, ?_, ?_⟩
    · rw [halved]
      simp only [ExtendedMantissa.shiftRightOne, even, bne_self_eq_false, Bool.false_eq_true,
        false_iff, not_le]
      linarith
    · rw [halved, ExtendedMantissa.shiftRightOne, inside, cast]
      constructor
      · intro other
        exact ⟨fun eq => other (by linarith), fun eq => by linarith⟩
      · rintro ⟨other, _⟩ eq
        exact other (by linarith)
  · rw [odd, Nat.cast_one] at cast
    refine ⟨by rw [halved]; linarith, by rw [halved]; linarith, ?_, ?_⟩
    · rw [halved]
      simp only [ExtendedMantissa.shiftRightOne, odd, Nat.one_ne_zero, bne_iff_ne, ne_eq,
        not_false_eq_true, true_iff]
      linarith
    · rw [halved, ExtendedMantissa.shiftRightOne, inside, cast]
      constructor
      · intro other
        exact ⟨fun eq => by linarith, fun eq => other (by linarith)⟩
      · rintro ⟨_, other⟩ eq
        exact other (by linarith)

theorem shiftRight (described : Describes extended position) (places : ℕ) :
    Describes (extended >>> places) (position / 2 ^ places) := by
  change Describes (places.repeat ExtendedMantissa.shiftRightOne extended) _
  induction places with
  | zero => rwa [pow_zero, div_one]
  | succ places ih =>
    rw [pow_succ, ← div_div]
    exact ih.shiftRightOne

/-- Rounding finds the mantissa that is at most half a unit away, and the even one of two. -/
theorem roundedMantissa_eq (described : Describes extended position) {nearest : ℕ}
    (close : |position - nearest| ≤ 1 / 2)
    (even : |position - nearest| = 1 / 2 → nearest % 2 = 0) :
    extended.roundedMantissa = nearest := by
  obtain ⟨floor, ceil, round_iff, sticky_iff⟩ := described
  obtain ⟨mantissa, roundBit, stickyBit⟩ := extended
  simp only at floor ceil round_iff sticky_iff
  obtain ⟨below, above⟩ := abs_le.mp close
  have lower : (mantissa : ℚ) < nearest + 1 := by linarith
  have upper : (nearest : ℚ) < mantissa + 2 := by linarith
  have sides : nearest = mantissa ∨ nearest = mantissa + 1 := by
    have : mantissa < nearest + 1 := by exact_mod_cast lower
    have : nearest < mantissa + 2 := by exact_mod_cast upper
    omega
  rw [ExtendedMantissa.roundedMantissa]
  rcases sides with rfl | rfl
  · cases roundBit with
    | false => cases stickyBit <;> rfl
    | true =>
      have behind := round_iff.mp rfl
      have middle : position = nearest + 1 / 2 := by linarith
      have tie : nearest % 2 = 0 := even (by rw [middle, add_sub_cancel_left]; norm_num)
      cases stickyBit with
      | false =>
        change nearest + nearest % 2 = nearest
        rw [tie, add_zero]
      | true => exact absurd middle (sticky_iff.mp rfl).2
  · rw [Nat.cast_add, Nat.cast_one] at below above even
    cases roundBit with
    | false =>
      have before := mt round_iff.mpr Bool.false_ne_true
      exact absurd (by linarith) before
    | true =>
      cases stickyBit with
      | false =>
        have settled : ¬ (position ≠ mantissa ∧ position ≠ mantissa + 1 / 2) := fun other =>
          Bool.false_ne_true (sticky_iff.mpr other)
        have behind := round_iff.mp rfl
        have middle : position = mantissa + 1 / 2 := by
          by_contra other
          exact settled ⟨fun eq => by linarith, other⟩
        have tie : (mantissa + 1) % 2 = 0 := even (by rw [middle]; norm_num [abs_of_neg])
        change mantissa + mantissa % 2 = mantissa + 1
        omega
      | true => rfl

/-- Nothing follows an exact mantissa. -/
theorem exact (mantissa : ℕ) :
    Describes (.ofMantissaAndAccuracy mantissa .exact) (mantissa : ℚ) := by
  refine ⟨le_rfl, lt_add_one _, ?_, ?_⟩
  · simp [ExtendedMantissa.ofMantissaAndAccuracy]
  · simp [ExtendedMantissa.ofMantissaAndAccuracy]

/-- A quotient is described by its whole part and how the remainder compares to half the divisor. -/
theorem quotient (dividend : ℕ) {divisor : ℕ} (positive : 0 < divisor) :
    Describes (.ofMantissaAndAccuracy (dividend / divisor)
      (accuracyOfFraction (dividend % divisor) divisor)) ((dividend : ℚ) / divisor) := by
  have proper := Nat.mod_lt dividend positive
  have split : (dividend : ℚ) = divisor * ((dividend / divisor : ℕ) : ℚ) +
      ((dividend % divisor : ℕ) : ℚ) := by
    exact_mod_cast (Nat.div_add_mod dividend divisor).symm
  generalize dividend / divisor = whole at split ⊢
  generalize dividend % divisor = rest at proper split ⊢
  have some : (0 : ℚ) < divisor := by exact_mod_cast positive
  have small : (rest : ℚ) < divisor := by exact_mod_cast proper
  have nonneg : (0 : ℚ) ≤ rest := Nat.cast_nonneg rest
  have position : (dividend : ℚ) / divisor = whole + rest / divisor := by
    rw [split, add_div, mul_div_cancel_left₀ _ some.ne']
  have half : ((whole : ℚ) + 1 / 2 ≤ whole + rest / divisor ↔ (divisor : ℚ) ≤ 2 * rest) := by
    rw [add_le_add_iff_left, div_le_div_iff₀ two_pos some, one_mul, mul_comm]
  have middle : ((whole : ℚ) + rest / divisor = whole + 1 / 2 ↔ (2 : ℚ) * rest = divisor) := by
    rw [add_right_inj, div_eq_div_iff some.ne' two_ne_zero, one_mul, mul_comm]
  have start : ((whole : ℚ) + rest / divisor = whole ↔ rest = 0) := by
    rw [add_eq_left, div_eq_zero_iff, or_iff_left some.ne', Nat.cast_eq_zero]
  have bounds : (whole : ℚ) ≤ whole + rest / divisor ∧ (whole : ℚ) + rest / divisor < whole + 1 :=
    ⟨le_add_of_nonneg_right (by positivity), by rwa [add_lt_add_iff_left, div_lt_one some]⟩
  rw [position, accuracyOfFraction]
  split_ifs with none
  · rw [none, Nat.cast_zero, zero_div, add_zero]
    exact exact whole
  · rcases lt_trichotomy (2 * rest) divisor with before | exactly | behind
    · have before' : (2 : ℚ) * rest < divisor := by exact_mod_cast before
      rw [Nat.compare_eq_lt.mpr before]
      refine ⟨bounds.1, bounds.2, iff_of_false Bool.false_ne_true ?_, iff_of_true rfl ?_⟩
      · exact fun behind => before'.not_ge (half.mp behind)
      · exact ⟨mt start.mp none, fun eq => before'.ne (middle.mp eq)⟩
    · have exactly' : (2 : ℚ) * rest = divisor := by exact_mod_cast exactly
      rw [Nat.compare_eq_eq.mpr exactly]
      refine ⟨bounds.1, bounds.2, iff_of_true rfl ?_, iff_of_false Bool.false_ne_true ?_⟩
      · exact half.mpr exactly'.ge
      · exact fun inside => inside.2 (middle.mpr exactly')
    · have behind' : (divisor : ℚ) < 2 * rest := by exact_mod_cast behind
      rw [Nat.compare_eq_gt.mpr behind]
      refine ⟨bounds.1, bounds.2, iff_of_true rfl ?_, iff_of_true rfl ?_⟩
      · exact half.mpr behind'.le
      · exact ⟨mt start.mp none, fun eq => behind'.ne' (middle.mp eq)⟩

end Describes

/-! ## The interval of a number -/

/-- The rationals that are rounded to a number: up to half a unit of its last place away, but only a
quarter below a power of two, where the numbers lie twice as close. The ends are rounded to an even
mantissa. -/
structure Covers (mantissa : ℕ) (exponent : ℤ) (x : ℚ) : Prop where
  low : ((mantissa : ℚ) - if mantissa = 2 ^ 52 ∧ -1074 < exponent then 1 / 4 else 1 / 2) *
    2 ^ exponent ≤ x
  high : x ≤ ((mantissa : ℚ) + 1 / 2) * 2 ^ exponent
  strict : mantissa % 2 = 1 →
    ((mantissa : ℚ) - 1 / 2) * 2 ^ exponent < x ∧ x < ((mantissa : ℚ) + 1 / 2) * 2 ^ exponent

variable {mantissa : ℕ} {exponent : ℤ} {x : ℚ}

/-- A number covers itself. -/
theorem Covers.self (mantissa : ℕ) (exponent : ℤ) :
    Covers mantissa exponent (mantissa * 2 ^ exponent) := by
  have unit : (0 : ℚ) < 2 ^ exponent := by positivity
  refine ⟨?_, ?_, fun _ => ⟨?_, ?_⟩⟩
  · refine mul_le_mul_of_nonneg_right ?_ unit.le
    split_ifs <;> linarith
  · exact mul_le_mul_of_nonneg_right (by linarith) unit.le
  · exact mul_lt_mul_of_pos_right (by linarith) unit
  · exact mul_lt_mul_of_pos_right (by linarith) unit

/-- The interval reaches down by half a unit at most. -/
theorem Covers.half_below (covers : Covers mantissa exponent x) :
    ((mantissa : ℚ) - 1 / 2) * 2 ^ exponent ≤ x := by
  refine le_trans (mul_le_mul_of_nonneg_right ?_ (by positivity)) covers.low
  split_ifs <;> linarith

/-- Under an exponent that leaves 53 bits, what a number covers is nearest to its mantissa, or to
the end of the range of mantissas if it lies below a power of two. -/
private theorem exists_nearest {place : ℤ} (canonical : Canonical mantissa exponent)
    (lowest : -1074 ≤ place) (narrow : position < 2 ^ 53)
    (full : -1074 < place → 2 ^ 52 ≤ position)
    (covers : Covers mantissa exponent (position * 2 ^ place)) :
    ∃ nearest : ℕ, nearest ≤ 2 ^ 53 ∧ (2 ^ 52 ≤ nearest ∨ place = -1074) ∧
      magnitudeUnits nearest place = magnitudeUnits mantissa exponent ∧
      |position - nearest| ≤ 1 / 2 ∧ (|position - nearest| = 1 / 2 → nearest % 2 = 0) := by
  have unit : (0 : ℚ) < 2 ^ place := by positivity
  have unit' : (0 : ℚ) < 2 ^ exponent := by positivity
  have below := covers.half_below
  rcases lt_trichotomy place exponent with finer | rfl | coarser
  · obtain ⟨steps, rfl⟩ : ∃ steps : ℕ, exponent = place + 1 + steps :=
      ⟨(exponent - place - 1).toNat, by omega⟩
    have scale : (2 : ℚ) ^ (place + 1 + (steps : ℤ)) = 2 ^ place * (2 * 2 ^ steps) := by
      rw [zpow_add₀ two_ne_zero, zpow_add_one₀ two_ne_zero, zpow_natCast, mul_assoc]
    have steps_pos : (1 : ℚ) ≤ 2 ^ steps := one_le_pow₀ one_le_two
    have large : 2 ^ 52 ≤ mantissa := canonical.full.resolve_right (by omega)
    have large' : (2 : ℚ) ^ 52 ≤ mantissa := by exact_mod_cast large
    have low := covers.low
    rw [scale, ← mul_assoc, mul_right_comm, mul_le_mul_iff_of_pos_right unit] at low below
    have power : mantissa = 2 ^ 52 := by
      have : (mantissa : ℚ) - 1 / 2 < 2 ^ 52 := by nlinarith
      have : (mantissa : ℚ) < (2 ^ 52 + 1 : ℕ) := by push_cast; linarith
      have : mantissa < 2 ^ 52 + 1 := by exact_mod_cast this
      omega
    rw [if_pos ⟨power, by omega⟩, power, Nat.cast_pow, Nat.cast_ofNat] at low
    obtain rfl : steps = 0 := by
      by_contra more
      have twice : (2 : ℚ) ≤ 2 ^ steps := le_self_pow₀ one_le_two more
      nlinarith
    rw [pow_zero, mul_one] at low
    have close : |position - (2 ^ 53 : ℕ)| ≤ 1 / 2 := by
      rw [Nat.cast_pow, Nat.cast_ofNat, abs_le]
      constructor <;> linarith
    refine ⟨2 ^ 53, le_rfl, .inl (by norm_num), ?_, close, fun _ => by norm_num⟩
    have next : (place + 1 + ((0 : ℕ) : ℤ) + 1074).toNat = (place + 1074).toNat + 1 := by omega
    rw [magnitudeUnits, magnitudeUnits, power, next]
    ring
  · rw [mul_le_mul_iff_of_pos_right unit] at below
    have above := covers.high
    rw [mul_le_mul_iff_of_pos_right unit] at above
    refine ⟨mantissa, canonical.narrow.le, canonical.full, rfl, ?_, fun half => ?_⟩
    · rw [abs_le]
      constructor <;> linarith
    · by_contra odd
      obtain ⟨left, right⟩ := covers.strict (by omega)
      rw [mul_lt_mul_iff_of_pos_right unit] at left right
      have inside : |position - mantissa| < 1 / 2 := by
        rw [abs_lt]
        constructor <;> linarith
      exact inside.ne half
  · obtain ⟨steps, rfl⟩ : ∃ steps : ℕ, place = exponent + 1 + steps :=
      ⟨(place - exponent - 1).toNat, by omega⟩
    have low := canonical.low
    have large := full (by omega)
    have scale : (2 : ℚ) ^ (exponent + 1 + (steps : ℤ)) = 2 ^ exponent * (2 * 2 ^ steps) := by
      rw [zpow_add₀ two_ne_zero, zpow_add_one₀ two_ne_zero, zpow_natCast, mul_assoc]
    have above := covers.high
    rw [scale, ← mul_assoc, mul_right_comm, mul_le_mul_iff_of_pos_right unit'] at above
    have steps_pos : (1 : ℚ) ≤ 2 ^ steps := one_le_pow₀ one_le_two
    have small : (mantissa : ℚ) + 1 ≤ 2 ^ 53 := by exact_mod_cast canonical.narrow
    nlinarith

/-! ## Rounding -/

private theorem Trimmed.eq_of_le {mantissa' : ℕ} {exponent' : ℤ}
    (trimmed : Trimmed mantissa exponent) (trimmed' : Trimmed mantissa' exponent')
    (ordered : exponent ≤ exponent')
    (same : magnitudeUnits mantissa exponent = magnitudeUnits mantissa' exponent') :
    mantissa = mantissa' ∧ exponent = exponent' := by
  obtain ⟨steps, rfl⟩ := Int.le.dest ordered
  have low := trimmed.low
  have split : (exponent + steps + 1074).toNat = steps + (exponent + 1074).toNat := by omega
  rw [magnitudeUnits, magnitudeUnits, split, pow_add, ← mul_assoc] at same
  have shifted := Nat.eq_of_mul_eq_mul_right (Nat.two_pow_pos _) same
  obtain rfl : steps = 0 := by
    by_contra more
    have large : 2 ^ 52 ≤ mantissa' := trimmed'.full.resolve_right (by omega)
    have double : 2 ^ 1 ≤ 2 ^ steps :=
      Nat.pow_le_pow_right two_pos (Nat.one_le_iff_ne_zero.mpr more)
    have product := Nat.mul_le_mul large double
    have narrow := trimmed.narrow
    omega
  exact ⟨by rwa [pow_zero, mul_one] at shifted, by simp⟩

/-- A mantissa and an exponent as rounding leaves them are determined by the number. -/
private theorem Trimmed.unique {mantissa' : ℕ} {exponent' : ℤ} (trimmed : Trimmed mantissa exponent)
    (trimmed' : Trimmed mantissa' exponent')
    (same : magnitudeUnits mantissa exponent = magnitudeUnits mantissa' exponent') :
    mantissa = mantissa' ∧ exponent = exponent' := by
  rcases le_total exponent exponent' with ordered | ordered
  · exact trimmed.eq_of_le trimmed' ordered same
  · obtain ⟨eq, eq'⟩ := trimmed'.eq_of_le trimmed ordered same.symm
    exact ⟨eq.symm, eq'.symm⟩

/-- Whatever a number covers is rounded to it, if it is described with enough places. -/
theorem roundWithAccuracy_eq (sign : Sign) {given : ℕ} {place : ℤ} {accuracy : Accuracy}
    (canonical : Canonical mantissa exponent) (positive : 0 < mantissa)
    (described : Describes (.ofMantissaAndAccuracy given accuracy) position)
    (room : place ≤ max (given.log2 + place - 52) (-1074))
    (covers : Covers mantissa exponent (position * 2 ^ place)) :
    roundWithAccuracy Format.binary64 sign given place accuracy =
      .finite sign mantissa exponent positive := by
  obtain ⟨places, target⟩ := Int.le.dest room
  have kept : (ExtendedMantissa.ofMantissaAndAccuracy given accuracy).mantissa = given := by
    rcases accuracy with _ | _ | _ | _ <;> rfl
  have shifted : shiftToTargetExponent Format.binary64 given place accuracy =
      (ExtendedMantissa.ofMantissaAndAccuracy given accuracy >>> places, place + places) := by
    rw [shiftToTargetExponent, targetExponent_eq, ← target, shiftToExponent]
    simp
  have unit : (0 : ℚ) < 2 ^ places := by positivity
  have scale : position / 2 ^ places * 2 ^ (place + (places : ℤ)) = position * 2 ^ place := by
    rw [zpow_add₀ two_ne_zero, zpow_natCast]
    field_simp
  have narrow : position / 2 ^ places < 2 ^ 53 := by
    have ceil := described.ceil
    have bits : given + 1 ≤ 2 ^ (53 + places) :=
      (Nat.lt_log2_self (n := given)).trans_le (Nat.pow_le_pow_right two_pos (by omega))
    have bits' : (given : ℚ) + 1 ≤ 2 ^ (53 + places) := by exact_mod_cast bits
    rw [div_lt_iff₀ unit, ← pow_add]
    rw [kept] at ceil
    exact ceil.trans_le bits'
  have full : -1074 < place + (places : ℤ) → 2 ^ 52 ≤ position / 2 ^ places := by
    intro above
    have floor := described.floor
    have some : given ≠ 0 := by
      rintro rfl
      rw [Nat.log2_zero] at target
      omega
    have bits : 2 ^ (52 + places) ≤ given :=
      (Nat.pow_le_pow_right two_pos (by omega)).trans (Nat.log2_self_le some)
    have bits' : (2 : ℚ) ^ (52 + places) ≤ given := by exact_mod_cast bits
    rw [le_div_iff₀ unit, ← pow_add]
    rw [kept] at floor
    exact bits'.trans floor
  rw [← scale] at covers
  obtain ⟨nearest, range, full', same, close, even⟩ :=
    exists_nearest canonical (by omega) narrow full covers
  have rounded := (described.shiftRight places).roundedMantissa_eq close even
  obtain ⟨trimmed, _, same'⟩ := carry range (by omega) full'
  obtain ⟨mantissa_eq, exponent_eq⟩ := trimmed.unique
    ⟨canonical.narrow, canonical.low, canonical.full⟩ (same'.trans same)
  rw [roundWithAccuracy, shifted]
  dsimp only
  rw [rounded, dif_neg (by rw [mantissa_eq]; exact positive.ne')]
  congr 1

/-! ## Products, quotients and powers of ten -/

section

variable {first second : ℕ} {place place' : ℤ} {some : 0 < first} {some' : 0 < second}

/-- A product of 53 bits or more is rounded to the number that covers it. -/
theorem mul_eq (canonical : Canonical mantissa exponent) (positive : 0 < mantissa)
    (wide : 52 ≤ (first * second).log2)
    (covers : Covers mantissa exponent (first * 2 ^ place * (second * 2 ^ place'))) :
    UnpackedFloat.mul Format.binary64 (.finite .positive first place some)
      (.finite .positive second place' some') =
        .finite .positive mantissa exponent positive := by
  have product : (first : ℚ) * 2 ^ place * (second * 2 ^ place') =
      ((first * second : ℕ) : ℚ) * 2 ^ (place + place') := by
    rw [zpow_add₀ two_ne_zero]
    push_cast
    ring
  rw [product] at covers
  exact roundWithAccuracy_eq (.positive * .positive) canonical positive (.exact _) (by omega) covers

/-- A quotient is rounded to the number that covers it. -/
theorem div_eq (canonical : Canonical mantissa exponent) (positive : 0 < mantissa)
    (covers : Covers mantissa exponent (first * 2 ^ place / (second * 2 ^ place'))) :
    UnpackedFloat.div Format.binary64 (.finite .positive first place some)
      (.finite .positive second place' some') =
        .finite .positive mantissa exponent positive := by
  obtain ⟨target, shift, core, lower, finest⟩ : ∃ (target : ℤ) (shift : ℕ),
      divCore Format.binary64 first place second place' = (first <<< shift / second, target,
        accuracyOfFraction (first <<< shift % second) second) ∧
      target + shift = place - place' ∧
      target ≤ max (first.log2 + place - (second.log2 + place') - 53) (-1074) := by
    refine ⟨_, _, rfl, ?_, ?_⟩
    · omega
    · simp only [Format.targetExponent, totalExponent, Format.mantissaBits, Format.minExponent]
      omega
  rw [Nat.shiftLeft_eq] at core
  have quotient : (first : ℚ) * 2 ^ place / (second * 2 ^ place') =
      ((first * 2 ^ shift : ℕ) : ℚ) / second * 2 ^ target := by
    have scale : (2 : ℚ) ^ place = 2 ^ target * 2 ^ shift * 2 ^ place' := by
      rw [← zpow_natCast, ← zpow_add₀ two_ne_zero, ← zpow_add₀ two_ne_zero]
      congr 1
      omega
    have divisor : (second : ℚ) ≠ 0 := by exact_mod_cast some'.ne'
    rw [scale]
    push_cast
    field_simp
  have room : target ≤ max ((first * 2 ^ shift / second).log2 + target - 52) (-1074) := by
    rcases le_or_gt target (-1074) with lowest | above
    · exact le_max_of_le_right lowest
    · have wide : 2 ^ 52 ≤ first * 2 ^ shift / second := by
        rw [Nat.le_div_iff_mul_le some']
        calc 2 ^ 52 * second
          _ ≤ 2 ^ 52 * 2 ^ (second.log2 + 1) := Nat.mul_le_mul_left _ Nat.lt_log2_self.le
          _ = 2 ^ (52 + (second.log2 + 1)) := (pow_add ..).symm
          _ ≤ 2 ^ (first.log2 + shift) := Nat.pow_le_pow_right two_pos (by omega)
          _ = 2 ^ first.log2 * 2 ^ shift := pow_add ..
          _ ≤ first * 2 ^ shift := Nat.mul_le_mul_right _ (Nat.log2_self_le some.ne')
      have bits := (Nat.le_log2 (by omega)).mpr wide
      exact le_max_of_le_left (by omega)
  rw [quotient] at covers
  rw [UnpackedFloat.div, core]
  exact roundWithAccuracy_eq (.positive / .positive) canonical positive
    (.quotient _ some') room covers

end

/-- No number covers a rational of 2¹⁰²⁴ or more. -/
theorem Covers.lt_two_pow (covers : Covers mantissa exponent x)
    (canonical : Canonical mantissa exponent) : x < 2 ^ (1024 : ℤ) := by
  have small : (mantissa : ℚ) + 1 ≤ 2 ^ 53 := by exact_mod_cast canonical.narrow
  calc x
    _ ≤ ((mantissa : ℚ) + 1 / 2) * 2 ^ exponent := covers.high
    _ < 2 ^ 53 * 2 ^ exponent := mul_lt_mul_of_pos_right (by linarith) (by positivity)
    _ ≤ 2 ^ 53 * 2 ^ (971 : ℤ) :=
        mul_le_mul_of_nonneg_left (zpow_le_zpow_right₀ one_le_two canonical.high) (by positivity)
    _ = 2 ^ ((53 : ℕ) + 971 : ℤ) := by rw [zpow_add₀ two_ne_zero, zpow_natCast]

/-- No number other than zero covers a rational below 2⁻¹⁰⁷⁵. -/
theorem Covers.two_zpow_le (covers : Covers mantissa exponent x)
    (canonical : Canonical mantissa exponent) (positive : 0 < mantissa) :
    (2 : ℚ) ^ (-1075 : ℤ) ≤ x := by
  have some : (1 : ℚ) ≤ mantissa := by exact_mod_cast positive
  calc (2 : ℚ) ^ (-1075 : ℤ)
    _ = 2 ^ (-1 + -1074 : ℤ) := rfl
    _ = 1 / 2 * 2 ^ (-1074 : ℤ) := by rw [zpow_add₀ two_ne_zero, zpow_neg_one, one_div]
    _ ≤ 1 / 2 * 2 ^ exponent :=
        mul_le_mul_of_nonneg_left (zpow_le_zpow_right₀ one_le_two canonical.low) (by positivity)
    _ ≤ ((mantissa : ℚ) - 1 / 2) * 2 ^ exponent :=
        mul_le_mul_of_nonneg_right (by linarith) (by positivity)
    _ ≤ x := covers.half_below

theorem Covers.pos (covers : Covers mantissa exponent x) (canonical : Canonical mantissa exponent)
    (positive : 0 < mantissa) : 0 < x :=
  lt_of_lt_of_le (by positivity) (covers.two_zpow_le canonical positive)

/-- A natural number times a power of ten is rounded to the number that covers it. -/
theorem ofScientific_eq (canonical : Canonical mantissa exponent) (positive : 0 < mantissa)
    {digits : ℕ} {power : ℤ} (covers : Covers mantissa exponent (digits * 10 ^ power)) :
    UnpackedFloat.ofScientific Format.binary64 digits power =
      .finite .positive mantissa exponent positive := by
  have some : digits ≠ 0 := by
    rintro rfl
    have := covers.pos canonical positive
    simp at this
  have inside : ¬ power > 2 ^ Format.binary64.exponentBits := by
    intro large
    change power > 2 ^ 11 at large
    obtain ⟨places, rfl⟩ := Int.eq_ofNat_of_zero_le (show 0 ≤ power by omega)
    have bound := covers.lt_two_pow canonical
    have one : (1 : ℚ) ≤ digits := by exact_mod_cast Nat.one_le_iff_ne_zero.mpr some
    have wide : (2 : ℚ) ^ (1024 : ℤ) ≤ 10 ^ (places : ℤ) := by
      refine (zpow_le_zpow_right₀ one_le_two (by omega : 1024 ≤ (places : ℤ))).trans ?_
      rw [zpow_natCast, zpow_natCast]
      exact pow_le_pow_left₀ two_pos.le (by norm_num) _
    have : (1 : ℚ) * 2 ^ (1024 : ℤ) ≤ digits * 10 ^ (places : ℤ) := by gcongr
    linarith
  have inside' : ¬ power < -(2 ^ Format.binary64.exponentBits + (digits.log2 : ℤ)) := by
    intro small
    change power < -(2 ^ 11 + (digits.log2 : ℤ)) at small
    obtain ⟨places, rfl⟩ : ∃ places : ℕ, power = -(places : ℤ) := ⟨power.natAbs, by omega⟩
    have bound := covers.two_zpow_le canonical positive
    have bits : (digits : ℚ) ≤ 2 ^ ((digits.log2 + 1 : ℕ) : ℤ) := by
      rw [zpow_natCast]
      exact_mod_cast (Nat.lt_log2_self (n := digits)).le
    have tiny : (10 : ℚ) ^ (-(places : ℤ)) ≤ 2 ^ (-(places : ℤ)) := by
      rw [zpow_neg, zpow_neg, zpow_natCast, zpow_natCast]
      exact inv_anti₀ (by positivity) (pow_le_pow_left₀ two_pos.le (by norm_num) _)
    have product : (digits : ℚ) * 10 ^ (-(places : ℤ)) ≤
        2 ^ (((digits.log2 + 1 : ℕ) : ℤ) + -(places : ℤ)) := by
      rw [zpow_add₀ two_ne_zero]
      gcongr
    have less : (2 : ℚ) ^ (((digits.log2 + 1 : ℕ) : ℤ) + -(places : ℤ)) < 2 ^ (-1075 : ℤ) :=
      zpow_lt_zpow_right₀ one_lt_two (by omega)
    linarith
  rw [UnpackedFloat.ofScientific, dif_neg some, if_neg inside, if_neg inside']
  split_ifs with whole
  · obtain ⟨places, rfl⟩ := Int.eq_ofNat_of_zero_le whole
    refine mul_eq canonical positive ?_ ?_
    · refine (Nat.le_log2 ?_).mpr ?_
      · exact Nat.mul_ne_zero (by simpa using some) (by positivity)
      · rw [Nat.shiftLeft_eq]
        have one : 1 ≤ digits * 10 ^ (places : ℤ).toNat :=
          Nat.one_le_iff_ne_zero.mpr (Nat.mul_ne_zero some (by positivity))
        change 2 ^ 52 ≤ digits * 2 ^ 53 * _
        nlinarith
    · convert covers using 1
      rw [Nat.shiftLeft_eq]
      push_cast
      rw [Int.toNat_natCast, zpow_natCast, mul_one, zpow_neg, zpow_natCast]
      field_simp
  · obtain ⟨places, rfl⟩ : ∃ places : ℕ, power = -(places : ℤ) := ⟨power.natAbs, by omega⟩
    refine div_eq canonical positive ?_
    convert covers using 1
    push_cast
    rw [neg_neg, Int.toNat_natCast, mul_one, mul_one, zpow_neg, zpow_natCast, div_eq_mul_inv]

/-! ## Words -/

/-- A positive number is stored under some exponent with a mantissa of 53 bits. -/
structure StoredWide (number : UnpackedFloat) (x : ℚ) : Prop where
  finite : ∃ mantissa exponent positive, number = .finite .positive mantissa exponent positive ∧
    Canonical mantissa exponent ∧ 2 ^ 52 ≤ mantissa ∧ mantissa * 2 ^ exponent = x

/-- A whole number of 53 bits at most is stored as it is. -/
private theorem storedWide_of_lt {n : ℕ} (positive : 0 < n) (small : n < 2 ^ 53) :
    StoredWide n.toUInt64.toFloat.toModel.unpack n := by
  have bits : n.log2 < 53 := (Nat.log2_lt positive.ne').mpr small
  obtain ⟨places, sum⟩ : ∃ places, n.log2 + places = 52 := ⟨52 - n.log2, by omega⟩
  have full : 2 ^ 52 ≤ n * 2 ^ places := by
    rw [← sum, pow_add]
    exact Nat.mul_le_mul_right _ (Nat.log2_self_le positive.ne')
  have narrow : n * 2 ^ places < 2 ^ 53 := by
    rw [(by omega : 53 = n.log2 + 1 + places), pow_add]
    exact Nat.mul_lt_mul_of_pos_right Nat.lt_log2_self (Nat.two_pow_pos _)
  have canonical : Canonical (n * 2 ^ places) (-places) :=
    ⟨narrow, by omega, by omega, .inl full⟩
  have some : 0 < n * 2 ^ places := by positivity
  have word : n.toUInt64.toNat = n := by
    rw [Nat.toUInt64_eq, UInt64.toNat_ofNat']
    exact Nat.mod_eq_of_lt (by omega)
  have shift : (0 - max ((n.log2 : ℤ) + 0 - 52) (-1074)).toNat = places := by omega
  have rounded : UnpackedFloat.ofUInt64 Format.binary64 n.toUInt64 =
      .finite .positive (n * 2 ^ places) (-places) some := by
    rw [UnpackedFloat.ofUInt64, word, UnpackedFloat.ofNat, UnpackedFloat.ofInt,
      UnpackedFloat.normalize, Int.compare_eq_gt.mpr (by exact_mod_cast positive)]
    dsimp only
    rw [UnpackedFloat.round, Int.toNat_natCast, targetExponent_eq, decreaseExponent, shift,
      Nat.shiftLeft_eq, zero_sub]
    have log : (n * 2 ^ places).log2 = 52 :=
      (Nat.log2_eq_iff some.ne').mpr ⟨full, narrow⟩
    exact roundWithAccuracy_eq .positive canonical some (.exact _) (by omega) (.self _ _)
  refine ⟨_, _, some, ?_, canonical, full, ?_⟩
  · change (Float.Model.pack (UnpackedFloat.ofUInt64 Format.binary64 n.toUInt64)).unpack = _
    rw [rounded]
    exact unpack_pack canonical
  · rw [zpow_neg, zpow_natCast]
    push_cast
    field_simp

/-- Whether a number is a power of ten with a mantissa of 53 bits. -/
private def isPowerOfTen (place : ℕ) : UnpackedFloat → Bool
  | .finite .positive mantissa exponent _ =>
    2 ^ 52 ≤ mantissa && mantissa < 2 ^ 53 && -52 ≤ exponent && exponent ≤ 971 &&
      mantissa * 2 ^ (exponent + 52).toNat = 10 ^ place * 2 ^ 52
  | _ => false

private theorem isPowerOfTen_table : ∀ place : Fin 23,
    isPowerOfTen place (Float.exactlyRepresentablePowersOfTen[place]).toModel.unpack = true := by
  decide +kernel

private theorem storedWide_of_isPowerOfTen {place : ℕ} {number : UnpackedFloat}
    (tested : isPowerOfTen place number = true) : StoredWide number (10 ^ place) := by
  match number, tested with
  | .finite .positive mantissa exponent positive, tested =>
    simp only [isPowerOfTen, Bool.and_eq_true, decide_eq_true_eq] at tested
    obtain ⟨⟨⟨⟨full, narrow⟩, low⟩, high⟩, same⟩ := tested
    refine ⟨mantissa, exponent, positive, rfl, ⟨narrow, by omega, high, .inl full⟩, full, ?_⟩
    obtain ⟨places, rfl⟩ : ∃ places : ℕ, exponent = places - 52 :=
      ⟨(exponent + 52).toNat, by omega⟩
    rw [sub_add_cancel, Int.toNat_natCast] at same
    have same' : (mantissa : ℚ) * 2 ^ places = 10 ^ place * 2 ^ 52 := by exact_mod_cast same
    rw [zpow_sub₀ two_ne_zero, zpow_natCast, ← mul_div_assoc, same']
    norm_num

/-- Reading a decimal: whatever a number covers is read as that number. -/
theorem unpack_ofScientific (canonical : Canonical mantissa exponent) (positive : 0 < mantissa)
    {digits places : ℕ} {below : Bool}
    (covers : Covers mantissa exponent
      (digits * 10 ^ (if below then -(places : ℤ) else places))) :
    (Float.ofScientific digits below places).toModel.unpack =
      .finite .positive mantissa exponent positive := by
  have some : 0 < digits := by
    by_contra none
    obtain rfl : digits = 0 := by omega
    have := covers.pos canonical positive
    simp at this
  rw [Float.ofScientific]
  by_cases small : digits < 2 ^ 53 ∧ places ≤ 22
  · obtain ⟨first, place, some', read, canonical', full, value⟩ := storedWide_of_lt some small.1
    obtain ⟨second, place', some'', read', canonical'', full', value'⟩ :=
      storedWide_of_isPowerOfTen (isPowerOfTen_table ⟨places, by omega⟩)
    rw [dif_pos small]
    cases below with
    | false =>
      have wide : 52 ≤ (first * second).log2 :=
        (Nat.le_log2 (by positivity)).mpr (full.trans (Nat.le_mul_of_pos_right _ some''))
      have product : Covers mantissa exponent (first * 2 ^ place * (second * 2 ^ place')) := by
        rw [value, value', ← zpow_natCast]
        exact covers
      refine (congrArg (Float.Model.unpack ∘ Float.Model.pack)
        (congrArg₂ (UnpackedFloat.mul Format.binary64) read read')).trans ?_
      rw [mul_eq canonical positive wide product]
      exact unpack_pack canonical
    | true =>
      have quotient : Covers mantissa exponent (first * 2 ^ place / (second * 2 ^ place')) := by
        rw [value, value', div_eq_mul_inv, ← zpow_natCast, ← zpow_neg]
        exact covers
      refine (congrArg (Float.Model.unpack ∘ Float.Model.pack)
        (congrArg₂ (UnpackedFloat.div Format.binary64) read read')).trans ?_
      rw [div_eq canonical positive quotient]
      exact unpack_pack canonical
  · rw [dif_neg small]
    cases below with
    | false =>
      have rounded : UnpackedFloat.ofScientific Format.binary64 digits places = _ :=
        ofScientific_eq canonical positive covers
      refine (congrArg (Float.Model.unpack ∘ Float.Model.pack) rounded).trans ?_
      exact unpack_pack canonical
    | true =>
      have power : Int.negOfNat places = -(places : ℤ) := by cases places <;> rfl
      have rounded : UnpackedFloat.ofScientific Format.binary64 digits (Int.negOfNat places) = _ :=
        ofScientific_eq canonical positive (by rw [power]; exact covers)
      refine (congrArg (Float.Model.unpack ∘ Float.Model.pack) rounded).trans ?_
      exact unpack_pack canonical

end LinearAssignment.Binary64
