import LinearAssignment.Proofs.Cost
import LinearAssignment.Proofs.Cost.Rounding
import LinearAssignment.Proofs.Cost.Unpacked

/-! # 64-bit floating point rounds

Numbers are read from words and packed into words, which changes nothing about those that are
rounded well. So 64-bit floating point is rounded arithmetic below 2¹⁰²³. The order of its numbers
is linear up to the sign of zero, infinities included, and no number is undefined unless opposite
infinities are added.
-/

namespace LinearAssignment.Binary64

open Float.Model Float.Model.UnpackedFloat

/-! ## Words -/

private theorem bias : (Format.binary64.exponentBias : ℤ) +
    Format.binary64.mantissaBitsWithoutImplicit = 1075 := rfl

/-- What is read from a word is well-formed. -/
theorem wellFormed_unpack (word : Float.Model) : WellFormed word.unpack := by
  rw [Float.Model.unpack, UnpackedFloat.unpack]
  dsimp only
  set mantissa := @unpackMantissa Format.binary64 word.toBits.toBitVec
  set exponent := @unpackExponent Format.binary64 word.toBits.toBitVec
  have narrow : mantissa.toNat < 2 ^ 52 := mantissa.isLt
  have short : exponent.toNat < 2 ^ 11 := exponent.isLt
  split_ifs with special undefined subnormal zero
  · trivial
  · trivial
  · trivial
  · refine ⟨narrow.trans (by norm_num), ?_, ?_, .inr ?_⟩ <;> rw [subnormal, bias] <;> decide
  · have inside : exponent.toNat ≠ 2047 := fun eq => special (BitVec.eq_of_toNat_eq eq)
    have normal : exponent.toNat ≠ 0 := fun eq => subnormal (BitVec.eq_of_toNat_eq eq)
    have size : (1#1 ++ mantissa).toNat = 2 ^ 52 + mantissa.toNat := by
      rw [BitVec.toNat_append, ← Nat.shiftLeft_add_eq_or_of_lt narrow]
      rfl
    refine ⟨?_, ?_, ?_, .inl ?_⟩
    · rw [size]
      omega
    · rw [bias]
      omega
    · rw [bias]
      omega
    · rw [size]
      omega

private theorem unpackSign_packComponents (sign : Sign) (exponent : BitVec 11)
    (mantissa : BitVec 52) :
    unpackSign (packComponents Format.binary64 sign exponent mantissa) = sign.toBitVec := by
  change (sign.toBitVec ++ exponent ++ mantissa).extractLsb' 63 1 = sign.toBitVec
  rw [BitVec.extractLsb'_append_eq_of_le (by decide),
    BitVec.extractLsb'_append_eq_of_le (by decide)]
  cases sign <;> rfl

private theorem ofBitVec_toBitVec (sign : Sign) : Sign.ofBitVec sign.toBitVec = sign := by
  cases sign <;> rfl

private theorem finite_congr {sign : Sign} {mantissa mantissa' : ℕ} {exponent exponent' : ℤ}
    {positive : 0 < mantissa} {positive' : 0 < mantissa'} (same : mantissa = mantissa')
    (same' : exponent = exponent') :
    UnpackedFloat.finite sign mantissa exponent positive =
      .finite sign mantissa' exponent' positive' := by
  subst same same'
  rfl

/-- A mantissa of 53 bits is packed without its first one, beside an exponent that is not zero. -/
private theorem unpack_packComponents_normal (sign : Sign) {mantissa : ℕ} {exponent : ℤ}
    (positive : 0 < mantissa) (log : mantissa.log2 = 52) (low : -1074 ≤ exponent)
    (high : exponent ≤ 971) :
    UnpackedFloat.unpack Format.binary64 (packComponents Format.binary64 sign
      (BitVec.ofNat 11 (exponent + 1075).toNat) (BitVec.ofNat 52 mantissa)) =
        .finite sign mantissa exponent positive := by
  have full := Nat.log2_self_le positive.ne'
  have narrow := (Nat.log2_lt positive.ne').mp (by omega : mantissa.log2 < 53)
  rw [log] at full
  have exponent_eq : (BitVec.ofNat 11 (exponent + 1075).toNat).toNat =
      (exponent + 1075).toNat := Nat.mod_eq_of_lt (by omega)
  have special : BitVec.ofNat 11 (exponent + 1075).toNat ≠ -1#11 := by
    intro eq
    rw [eq] at exponent_eq
    change 2047 = _ at exponent_eq
    omega
  have subnormal : BitVec.ofNat 11 (exponent + 1075).toNat ≠ 0#11 := by
    intro eq
    rw [eq] at exponent_eq
    change 0 = _ at exponent_eq
    omega
  simp only [UnpackedFloat.unpack, unpackExponent_packComponents, unpackMantissa_packComponents,
    unpackSign_packComponents, special, subnormal, if_false, ofBitVec_toBitVec]
  refine finite_congr ?_ ?_
  · rw [BitVec.toNat_append, ← Nat.shiftLeft_add_eq_or_of_lt (BitVec.isLt _)]
    change 2 ^ 52 + mantissa % 2 ^ 52 = mantissa
    omega
  · rw [exponent_eq, bias]
    omega

/-- A shorter mantissa is packed as it is, beside the exponent zero. -/
private theorem unpack_packComponents_subnormal (sign : Sign) {mantissa : ℕ}
    (positive : 0 < mantissa) (short : mantissa < 2 ^ 52) :
    UnpackedFloat.unpack Format.binary64 (packComponents Format.binary64 sign 0#11
      (BitVec.ofNat 52 mantissa)) = .finite sign mantissa (-1074) positive := by
  have mantissa_eq : (BitVec.ofNat 52 mantissa).toNat = mantissa := Nat.mod_eq_of_lt short
  have nonzero : BitVec.ofNat 52 mantissa ≠ 0#52 := by
    intro eq
    rw [eq] at mantissa_eq
    change 0 = _ at mantissa_eq
    omega
  have special : 0#11 ≠ -1#11 := by decide
  simp only [UnpackedFloat.unpack, unpackExponent_packComponents, unpackMantissa_packComponents,
    unpackSign_packComponents, special, nonzero, if_false, if_true, dif_neg, not_false_eq_true,
    ofBitVec_toBitVec]
  refine finite_congr mantissa_eq ?_
  rw [bias]
  rfl

/-- What is packed into a word is read from it again. -/
theorem unpack_pack {number : UnpackedFloat} (wellFormed : WellFormed number) :
    (Float.Model.pack number).unpack = number := by
  cases number with
  | notANumber => rfl
  | infinity sign => cases sign <;> rfl
  | zero sign => cases sign <;> rfl
  | finite sign mantissa exponent positive =>
    obtain ⟨narrow, low, high, full⟩ := wellFormed
    have biased : exponent + Format.binary64.exponentBias +
        Format.binary64.mantissaBitsWithoutImplicit = exponent + 1075 := by
      rw [add_assoc, bias]
    have inside : ¬ 2 ^ Format.binary64.exponentBits ≤ (exponent + 1075).toNat + 1 := by
      change ¬ 2 ^ 11 ≤ (exponent + 1075).toNat + 1
      omega
    change UnpackedFloat.unpack Format.binary64
      (UnpackedFloat.pack Format.binary64 (.finite sign mantissa exponent positive)) = _
    simp only [UnpackedFloat.pack, biased, inside, if_false]
    split_ifs with normal
    · exact unpack_packComponents_normal sign positive (Nat.succ.inj normal) low high
    · have log : mantissa.log2 ≠ 52 := fun eq => normal (congrArg Nat.succ eq)
      have log' : mantissa.log2 < 53 := (Nat.log2_lt positive.ne').mpr narrow
      have short : mantissa < 2 ^ 52 := (Nat.log2_lt positive.ne').mp (by omega)
      obtain rfl : exponent = -1074 := full.resolve_left (by omega)
      exact unpack_packComponents_subnormal sign positive short

/-! ## Numbers -/

/-- How many times the smallest positive number a finite number is. -/
def units (x : Float) : ℤ := unpackedUnits x.toModel.unpack

/-- The rational that a finite number is. -/
def value (x : Float) : ℚ := units x / 2 ^ 1074

private theorem abs_div_pow (k : ℤ) (place : ℕ) :
    |(k : ℚ) / 2 ^ place| = ((|k| : ℤ) : ℚ) / 2 ^ place := by
  rw [abs_div, abs_of_nonneg (by positivity : (0 : ℚ) ≤ 2 ^ place), Int.cast_abs]

private theorem abs_lt_of_abs_div_lt {k : ℤ} {size place : ℕ}
    (bound : |(k : ℚ) / 2 ^ place| < 2 ^ size) : |k| < (2 ^ (size + place) : ℕ) := by
  rw [abs_div_pow, div_lt_iff₀ (by positivity), ← pow_add] at bound
  exact_mod_cast bound

private theorem abs_div_le_of_abs_le {k : ℤ} {size place : ℕ}
    (bound : |k| ≤ (2 ^ (size + place) : ℕ)) : |(k : ℚ) / 2 ^ place| ≤ 2 ^ size := by
  rw [abs_div_pow, div_le_iff₀ (by positivity), ← pow_add]
  exact_mod_cast bound

/-- The word of a result that is rounded well. -/
private theorem Rounds.word {result : UnpackedFloat} {k : ℤ} (rounds : Rounds result k) :
    (Float.ofModel (Float.Model.pack result)).isFinite = true ∧
      |value (.ofModel (Float.Model.pack result)) - k / 2 ^ 1074| ≤ 2 ^ 970 := by
  have read := unpack_pack rounds.wellFormed
  refine ⟨(congrArg UnpackedFloat.isFinite read).trans rounds.finite, ?_⟩
  rw [value, units, read, ← sub_div, ← Int.cast_sub]
  exact abs_div_le_of_abs_le rounds.close

variable {x y : Float}

private theorem add_value (finite : x.isFinite = true) (finite' : y.isFinite = true)
    (bound : |value x + value y| < 2 ^ 1023) :
    (x + y).isFinite = true ∧ |value (x + y) - (value x + value y)| ≤ 2 ^ 970 := by
  have sum : value x + value y = ((units x + units y : ℤ) : ℚ) / 2 ^ 1074 := by
    rw [value, value, ← add_div, Int.cast_add]
  rw [sum] at bound ⊢
  exact (add_sharp (wellFormed_unpack x.toModel) finite (wellFormed_unpack y.toModel) finite'
    (abs_lt_of_abs_div_lt bound)).toRounds.word

private theorem sub_value (finite : x.isFinite = true) (finite' : y.isFinite = true)
    (bound : |value x - value y| < 2 ^ 1023) :
    (x - y).isFinite = true ∧ |value (x - y) - (value x - value y)| ≤ 2 ^ 970 := by
  have difference : value x - value y = ((units x - units y : ℤ) : ℚ) / 2 ^ 1074 := by
    rw [value, value, ← sub_div, Int.cast_sub]
  rw [difference] at bound ⊢
  exact (sub_sharp (wellFormed_unpack x.toModel) finite (wellFormed_unpack y.toModel) finite'
    (abs_lt_of_abs_div_lt bound)).toRounds.word

private theorem double_value (finite : x.isFinite = true) (bound : |2 * value x| < 2 ^ 1023) :
    (x * Float.ofNat 2).isFinite = true ∧
      |value (x * Float.ofNat 2) - 2 * value x| ≤ 2 ^ 970 := by
  have double : 2 * value x = ((2 * units x : ℤ) : ℚ) / 2 ^ 1074 := by
    rw [value, Int.cast_mul, Int.cast_ofNat, mul_div_assoc]
  have read : (Float.ofNat 2).toModel.unpack = two := rfl
  rw [double] at bound ⊢
  have rounds := double_rounds (wellFormed_unpack x.toModel) finite (abs_lt_of_abs_div_lt bound)
  rw [← read] at rounds
  exact rounds.word

private theorem half_value (finite : x.isFinite = true) :
    (x / Float.ofNat 2).isFinite = true ∧
      |value (x / Float.ofNat 2)| ≤ |value x| / 2 + 2 ^ 970 := by
  have read : (Float.ofNat 2).toModel.unpack = two := rfl
  obtain ⟨half, rounds, small⟩ := half_rounds (wellFormed_unpack x.toModel) finite
  rw [← read] at rounds
  obtain ⟨finite', close⟩ := rounds.word
  refine ⟨finite', ?_⟩
  have halved : |(half : ℚ) / 2 ^ 1074| ≤ |value x| / 2 := by
    rw [value, abs_div_pow, abs_div_pow, div_right_comm]
    refine div_le_div_of_nonneg_right ?_ (by positivity)
    rw [le_div_iff₀ two_pos, mul_comm]
    exact_mod_cast small
  have triangle := abs_add_le (value (x / Float.ofNat 2) - (half : ℚ) / 2 ^ 1074)
    ((half : ℚ) / 2 ^ 1074)
  rw [sub_add_cancel] at triangle
  exact triangle.trans ((add_le_add close halved).trans_eq (add_comm _ _))

theorem isFinite_mul_billionth (finite : x.isFinite = true) :
    (x * CostNumber.billionth).isFinite = true := by
  have read : (CostNumber.billionth : Float).toModel.unpack = billionth := rfl
  obtain ⟨_, rounds⟩ := billionth_rounds (wellFormed_unpack x.toModel) finite
  rw [← read] at rounds
  exact rounds.word.1

theorem abs_value (finite : x.isFinite = true) :
    x.abs.isFinite = true ∧ value x.abs = |value x| := by
  obtain ⟨wellFormed, finite', same⟩ := unpackedUnits_abs (wellFormed_unpack x.toModel) finite
  have read := unpack_pack wellFormed
  have word : x.abs.toModel.unpack = x.toModel.unpack.abs := read
  refine ⟨(congrArg UnpackedFloat.isFinite read).trans finite', ?_⟩
  rw [value, value, units, word, same, abs_div_pow, units]

/-! ### Whole numbers -/

/-- A whole number has 53 bits before its last zeros if it is not above 2⁵³, which has one. -/
private theorem narrow_mul_two_pow {k : ℤ} (small : |k| ≤ 2 ^ 53) (places : ℕ) :
    Narrow (k * 2 ^ places) := by
  have scaled : |k * 2 ^ places| = |k| * 2 ^ places := by
    rw [abs_mul, abs_of_pos (by positivity : (0 : ℤ) < 2 ^ places)]
  rcases small.lt_or_eq with fits | full
  · refine ⟨places, dvd_mul_left _ _, ?_⟩
    rw [scaled, pow_add]
    exact mul_lt_mul_of_pos_right fits (by positivity)
  · have even : 2 ∣ k := (dvd_abs 2 k).mp (full ▸ dvd_pow_self 2 (by norm_num))
    refine ⟨places + 1, ?_, ?_⟩
    · rw [pow_succ']
      exact mul_dvd_mul_right even _
    · rw [scaled, full, ← pow_add]
      exact pow_lt_pow_right₀ (by norm_num) (by omega)

private theorem units_of_whole {k : ℤ} (whole : value x = k) : units x = k * 2 ^ 1074 := by
  have cast : (units x : ℚ) = (k * 2 ^ 1074 : ℤ) := by
    rw [Int.cast_mul, Int.cast_pow, Int.cast_ofNat, ← whole, value,
      div_mul_cancel₀ _ (by positivity)]
  exact Int.cast_injective cast

theorem value_of_units {k : ℤ} (whole : units x = k * 2 ^ 1074) : value x = k := by
  rw [value, whole, Int.cast_mul, Int.cast_pow, Int.cast_ofNat]
  exact mul_div_cancel_right₀ _ (by positivity)

private theorem abs_lt_safeUnits {k : ℤ} (small : |k| ≤ 2 ^ 53) :
    |k * 2 ^ 1074| < (safeUnits : ℤ) := by
  rw [abs_mul, abs_of_pos (by positivity : (0 : ℤ) < 2 ^ 1074), safeUnits, Nat.cast_pow, pow_add]
  refine mul_lt_mul_of_pos_right (small.trans_lt ?_) (by positivity)
  exact pow_lt_pow_right₀ (by norm_num) (by norm_num)

/-- The word of a whole result. -/
private theorem Sharp.word {result : UnpackedFloat} {k : ℤ} (sharp : Sharp result (k * 2 ^ 1074))
    (small : |k| ≤ 2 ^ 53) :
    (Float.ofModel (Float.Model.pack result)).isFinite = true ∧
      value (.ofModel (Float.Model.pack result)) = k := by
  have read := unpack_pack sharp.wellFormed
  refine ⟨(congrArg UnpackedFloat.isFinite read).trans sharp.finite, value_of_units ?_⟩
  rw [units, read, sharp.units_eq (narrow_mul_two_pow small 1074)]

/-- A sum of whole numbers is not rounded up to 2⁵³. -/
theorem add_whole {k l : ℤ} (finite : x.isFinite = true) (finite' : y.isFinite = true)
    (whole : value x = k) (whole' : value y = l) (small : |k + l| ≤ 2 ^ 53) :
    (x + y).isFinite = true ∧ value (x + y) = (k + l : ℤ) := by
  have sum : units x + units y = (k + l) * 2 ^ 1074 := by
    rw [units_of_whole whole, units_of_whole whole', add_mul]
  have sharp := add_sharp (wellFormed_unpack x.toModel) finite (wellFormed_unpack y.toModel)
    finite' (sum ▸ abs_lt_safeUnits small)
  rw [show unpackedUnits _ + unpackedUnits _ = _ from sum] at sharp
  exact sharp.word small

/-- A difference of whole numbers is not rounded up to 2⁵³. -/
theorem sub_whole {k l : ℤ} (finite : x.isFinite = true) (finite' : y.isFinite = true)
    (whole : value x = k) (whole' : value y = l) (small : |k - l| ≤ 2 ^ 53) :
    (x - y).isFinite = true ∧ value (x - y) = (k - l : ℤ) := by
  have difference : units x - units y = (k - l) * 2 ^ 1074 := by
    rw [units_of_whole whole, units_of_whole whole', sub_mul]
  have sharp := sub_sharp (wellFormed_unpack x.toModel) finite (wellFormed_unpack y.toModel)
    finite' (difference ▸ abs_lt_safeUnits small)
  rw [show unpackedUnits _ - unpackedUnits _ = _ from difference] at sharp
  exact sharp.word small

/-! ### Comparisons -/

/-- Finite numbers compare as the numbers of units that they are. -/
private theorem compare_units (finite : x.isFinite = true) (finite' : y.isFinite = true) :
    x.toModel.unpack.compare y.toModel.unpack = some (compare (units x) (units y)) :=
  compare_eq (wellFormed_unpack x.toModel) finite (wellFormed_unpack y.toModel) finite'

private theorem lt_iff (finite : x.isFinite = true) (finite' : y.isFinite = true) :
    x < y ↔ value x < value y := by
  have test : x < y ↔ x.toModel.unpack.lt y.toModel.unpack = true := decide_eq_true_iff
  rw [test, UnpackedFloat.lt, compare_units finite finite', beq_iff_eq, Option.some.injEq,
    Int.compare_eq_lt, value, value, div_lt_div_iff_of_pos_right (by positivity), Int.cast_lt]

private theorem le_iff (finite : x.isFinite = true) (finite' : y.isFinite = true) :
    x ≤ y ↔ value x ≤ value y := by
  have test : x ≤ y ↔ x.toModel.unpack.le y.toModel.unpack = true := decide_eq_true_iff
  rw [test, UnpackedFloat.le, compare_units finite finite', Option.any_some, Int.isLE_compare,
    value, value, div_le_div_iff_of_pos_right (by positivity), Int.cast_le]

theorem beq_iff (finite : x.isFinite = true) (finite' : y.isFinite = true) :
    (x == y) = true ↔ value x = value y := by
  change UnpackedFloat.beq _ _ = true ↔ _
  rw [UnpackedFloat.beq, compare_units finite finite', beq_iff_eq, Option.some.injEq,
    Int.compare_eq_eq, value, value, div_left_inj' (by positivity), Int.cast_inj]

private theorem lt_infinity (finite : x.isFinite = true) : x < infinity := by
  have order := (compare_infinity finite).1.1
  have test : x < infinity ↔ x.toModel.unpack.lt infinity.toModel.unpack = true :=
    decide_eq_true_iff
  have read : infinity.toModel.unpack = .infinity .positive := rfl
  rw [test, UnpackedFloat.lt, read, order]
  rfl

private theorem not_infinity_lt (finite : x.isFinite = true) : ¬ infinity < x := by
  have order := (compare_infinity finite).1.2
  have test : infinity < x ↔ infinity.toModel.unpack.lt x.toModel.unpack = true :=
    decide_eq_true_iff
  have read : infinity.toModel.unpack = .infinity .positive := rfl
  rw [test, UnpackedFloat.lt, read, order]
  decide

private theorem neg_infinity_lt (finite : x.isFinite = true) : -infinity < x := by
  have order := (compare_infinity finite).2.2
  have test : -infinity < x ↔ (-infinity).toModel.unpack.lt x.toModel.unpack = true :=
    decide_eq_true_iff
  have read : (-infinity).toModel.unpack = .infinity .negative := rfl
  rw [test, UnpackedFloat.lt, read, order]
  rfl

/-- No finite number is infinity. -/
theorem beq_infinity (finite : x.isFinite = true) :
    (x == infinity) = false ∧ (infinity == x) = false := by
  obtain ⟨order, order'⟩ := (compare_infinity finite).1
  have read : infinity.toModel.unpack = .infinity .positive := rfl
  constructor
  · change UnpackedFloat.beq _ _ = false
    rw [UnpackedFloat.beq, read, order]
    rfl
  · change UnpackedFloat.beq _ _ = false
    rw [UnpackedFloat.beq, read, order']
    rfl

/-- No finite number is infinity with the other sign. -/
theorem beq_neg_infinity (finite : x.isFinite = true) : (x == -infinity) = false := by
  have order := (compare_infinity finite).2.1
  have read : (-infinity).toModel.unpack = .infinity .negative := rfl
  change UnpackedFloat.beq _ _ = false
  rw [UnpackedFloat.beq, read, order]
  rfl

/-! ### Infinities -/

/-- What is packed into a word is read from it again, unless it is too large for one. -/
private theorem wellFormed_or_infinity {number : UnpackedFloat} (unbounded : Unbounded number) :
    WellFormed number ∨ ∃ sign, (Float.Model.pack number).unpack = .infinity sign := by
  cases number with
  | notANumber => exact .inl trivial
  | infinity sign => exact .inl trivial
  | zero sign => exact .inl trivial
  | finite sign mantissa exponent positive =>
    rcases le_or_gt exponent 971 with high | large
    · exact .inl (Trimmed.canonical unbounded high)
    · have biased : exponent + Format.binary64.exponentBias +
          Format.binary64.mantissaBitsWithoutImplicit = exponent + 1075 := by
        rw [add_assoc, bias]
      have outside : 2 ^ Format.binary64.exponentBits ≤ (exponent + 1075).toNat + 1 := by
        change 2 ^ 11 ≤ (exponent + 1075).toNat + 1
        omega
      refine .inr ⟨sign, ?_⟩
      change UnpackedFloat.unpack Format.binary64
        (UnpackedFloat.pack Format.binary64 (.finite sign mantissa exponent positive)) = _
      simp only [UnpackedFloat.pack, biased, outside, if_true]
      cases sign <;> rfl

/-- What is read from a word as a finite number was packed as one. -/
private theorem wellFormed_of_isFinite {number : UnpackedFloat} (unbounded : Unbounded number)
    (finite : (Float.ofModel (Float.Model.pack number)).isFinite = true) : WellFormed number := by
  rcases wellFormed_or_infinity unbounded with wellFormed | ⟨sign, infinite⟩
  · exact wellFormed
  · have absurd := congrArg UnpackedFloat.isFinite infinite
    cases (show false = true from absurd.symm.trans finite)

/-- A double that is finite is exact. -/
theorem value_double (finite : x.isFinite = true)
    (finite' : (x * Float.ofNat 2).isFinite = true) : value (x * Float.ofNat 2) = 2 * value x := by
  have read : (Float.ofNat 2).toModel.unpack = two := rfl
  obtain ⟨unbounded, exact⟩ := double_unbounded (wellFormed_unpack x.toModel) finite
  rw [← read] at unbounded exact
  have word : (x * Float.ofNat 2).toModel.unpack = _ :=
    unpack_pack (wellFormed_of_isFinite unbounded finite')
  rw [value, units, word, exact, Int.cast_mul, Int.cast_ofNat, mul_div_assoc]
  rfl

private theorem units_nonneg (nonneg : 0 ≤ value x) : 0 ≤ units x := by
  rw [value, le_div_iff₀ (by positivity), zero_mul] at nonneg
  exact_mod_cast nonneg

/-- A sum that is finite is not below its first summand if neither is negative. -/
theorem value_le_add (finite : x.isFinite = true) (finite' : y.isFinite = true)
    (nonneg : 0 ≤ value x) (nonneg' : 0 ≤ value y) (sum : (x + y).isFinite = true) :
    value x ≤ value (x + y) := by
  have wellFormed := wellFormed_unpack x.toModel
  have wellFormed' := wellFormed_unpack y.toModel
  obtain ⟨unbounded, _⟩ := add_unbounded wellFormed finite wellFormed' finite'
  have word : (x + y).toModel.unpack = _ := unpack_pack (wellFormed_of_isFinite unbounded sum)
  rw [value, value, div_le_div_iff_of_pos_right (by positivity), Int.cast_le, units, units, word]
  exact unpackedUnits_le_add wellFormed finite wellFormed' finite' (units_nonneg nonneg)
    (units_nonneg nonneg')

private theorem add_word (x y : Float) : (x + y).toModel.unpack =
    (Float.Model.pack (UnpackedFloat.add Format.binary64 x.toModel.unpack
      y.toModel.unpack)).unpack := rfl

/-- Adding a finite number to a number gives a number. -/
theorem isNaN_add (number : x.isNaN = false) (finite : y.isFinite = true) :
    (x + y).isNaN = false := by
  change (x + y).toModel.unpack.isNaN = false
  rw [add_word]
  rcases finite_or_infinity number with finite' | ⟨sign, infinite⟩
  · obtain ⟨unbounded, some⟩ := add_unbounded (wellFormed_unpack x.toModel) finite'
      (wellFormed_unpack y.toModel) finite
    rcases wellFormed_or_infinity unbounded with wellFormed | ⟨sign, infinite⟩
    · rw [unpack_pack wellFormed]
      exact not_isNaN_of_isFinite some
    · rw [infinite]
      rfl
  · rw [infinite, infinity_add sign finite]
    cases sign <;> rfl

private theorem isFinite_of_pack {number : UnpackedFloat}
    (finite : (Float.Model.pack number).unpack.isFinite = true) : number.isFinite = true := by
  cases number with
  | notANumber => exact finite
  | infinity sign => cases sign <;> exact finite
  | zero sign => rfl
  | finite sign mantissa exponent positive => rfl

/-- What a finite number is added to is finite if the sum is. -/
theorem isFinite_of_add (finite : y.isFinite = true) (sum : (x + y).isFinite = true) :
    x.isFinite = true := by
  have sum := isFinite_of_pack sum
  change x.toModel.unpack.isFinite = true
  generalize x.toModel.unpack = number at sum
  cases number with
  | notANumber =>
    rw [notANumber_add] at sum
    exact sum
  | infinity sign =>
    rw [infinity_add sign finite] at sum
    exact sum
  | zero sign => rfl
  | finite sign mantissa exponent positive => rfl

/-- Both sides of a difference are finite if its magnitude is. -/
theorem isFinite_of_abs_sub (gap : (x - y).abs.isFinite = true) :
    x.isFinite = true ∧ y.isFinite = true := by
  have magnitude : (x - y).toModel.unpack.abs.isFinite = true := isFinite_of_pack gap
  have difference : (x - y).isFinite = true := by
    change (x - y).toModel.unpack.isFinite = true
    generalize (x - y).toModel.unpack = number at magnitude
    cases number <;> exact magnitude
  exact isFinite_of_sub (isFinite_of_pack difference)

/-! ### The order of all numbers -/

/-- Where a number stands in the order, which is its number of units if it is finite. -/
private def place (x : Float) : ℤ := level x.toModel.unpack

private theorem lt_iff_place (number : x.isNaN = false) (number' : y.isNaN = false) :
    x < y ↔ place x < place y := by
  have test : x < y ↔ x.toModel.unpack.lt y.toModel.unpack = true := decide_eq_true_iff
  rw [test, UnpackedFloat.lt, compare_level (wellFormed_unpack x.toModel) number
    (wellFormed_unpack y.toModel) number', beq_iff_eq, Option.some.injEq, Int.compare_eq_lt]
  rfl

theorem isNaN_infinity : infinity.isNaN = false := by decide +kernel

theorem lt_trans {z : Float} (number : x.isNaN = false) (number' : y.isNaN = false)
    (number'' : z.isNaN = false) (below : x < y) (below' : y < z) : x < z := by
  rw [lt_iff_place number number'] at below
  rw [lt_iff_place number' number''] at below'
  rw [lt_iff_place number number'']
  omega

theorem lt_asymm (number : x.isNaN = false) (number' : y.isNaN = false) (below : x < y) :
    ¬ y < x := by
  rw [lt_iff_place number number'] at below
  rw [lt_iff_place number' number]
  omega

theorem lt_of_lt_of_not_lt {z : Float} (number : x.isNaN = false) (number' : y.isNaN = false)
    (number'' : z.isNaN = false) (below : x < y) (notBelow : ¬ z < y) : x < z := by
  rw [lt_iff_place number number'] at below
  rw [lt_iff_place number'' number'] at notBelow
  rw [lt_iff_place number number'']
  omega

/-- A number is determined by what is read from its word. -/
theorem eq_of_unpack (same : x.toModel.unpack = y.toModel.unpack) : x = y := by
  have bits := (unpack_inj_of_valid x.toModel.valid y.toModel.valid).mp same
  rw [← Float.toBits_inj]
  exact congrArg UInt64.ofBitVec bits

/-- A number that is not below infinity is infinity itself. -/
theorem eq_infinity (number : x.isNaN = false) (notBelow : ¬ x < infinity) : x = infinity := by
  rw [lt_iff_place number isNaN_infinity, not_lt] at notBelow
  exact eq_of_unpack (eq_infinity_of_level (wellFormed_unpack x.toModel) number notBelow)

/-! ### The largest number -/

theorem isFinite_largest : largest.isFinite = true := by decide +kernel

private theorem units_largest : units largest = largestUnits := rfl

theorem value_le_largest (finite : x.isFinite = true) : value x ≤ value largest := by
  have bound := (abs_le.mp (abs_unpackedUnits_le (wellFormed_unpack x.toModel) finite)).2
  rw [value, value, units_largest, div_le_div_iff_of_pos_right (by positivity), Int.cast_le]
  exact bound

/-- All other finite numbers are below the largest. -/
theorem value_lt_largest (finite : x.isFinite = true) (other : x ≠ largest) :
    value x < value largest := by
  refine (value_le_largest finite).lt_of_ne fun eq => other ?_
  have equal := (beq_iff finite isFinite_largest).mpr eq
  obtain ⟨-, -, same | ⟨-, zero⟩ | ⟨-, zero⟩⟩ := Float.beq_iff_ne_nan_and_eq.mp equal
  · exact same
  · exact absurd zero (by decide +kernel)
  · exact absurd zero (by decide +kernel)

theorem isFinite_zero : (Float.ofNat 0).isFinite = true := by decide +kernel

theorem value_zero : value (Float.ofNat 0) = 0 := by
  have read : (Float.ofNat 0).toModel.unpack = .zero .positive := rfl
  rw [value, units, read, unpackedUnits, Int.cast_zero, zero_div]
  simp

theorem isFinite_one : (Float.ofNat 1).isFinite = true := by decide +kernel

theorem value_one : value (Float.ofNat 1) = 1 := by
  have read : (Float.ofNat 1).toModel.unpack =
      .finite .positive (2 ^ 52) (-52) (Nat.two_pow_pos 52) := rfl
  rw [value, units, read, unpackedUnits, Sign.apply, magnitudeUnits, ← pow_add, Int.cast_natCast,
    Nat.cast_pow, Nat.cast_ofNat]
  exact div_self (by positivity)

private theorem clampFinite_of_isFinite (finite : x.isFinite = true) :
    CostNumber.clampFinite x = x := if_pos finite

private theorem error_nonneg : (0 : ℚ) ≤ 2 ^ 970 := by positivity

/-- Rounding to nearest, below 2¹⁰²³ to within the last place there. -/
instance roundedCost : RoundedCost Float where
  value := value
  range := 2 ^ 1023
  error := 2 ^ 970
  error_nonneg := error_nonneg
  isFinite_zero := isFinite_zero
  value_zero := value_zero
  isFinite_one := isFinite_one
  value_one := value_one
  add := add_value
  sub := sub_value
  double := double_value
  half := half_value
  magnitude := abs_value
  clampFinite_of_isFinite := clampFinite_of_isFinite
  lt_iff := lt_iff
  le_iff := le_iff
  value_eq_of_beq finite finite' := (beq_iff finite finite').mp
  lt_infinity := lt_infinity
  not_infinity_lt := not_infinity_lt
  neg_infinity_lt := neg_infinity_lt

theorem one_le_error : 1 ≤ RoundedCost.error Float := one_le_pow₀ (by norm_num)

/-- A mantissa has 53 bits. -/
theorem precise : 2 ^ 53 * RoundedCost.error Float ≤ RoundedCost.range Float := by
  change (2 : ℚ) ^ 53 * 2 ^ 970 ≤ 2 ^ 1023
  rw [← pow_add]

/-- Whatever has 53 bits before the point is inside the range. -/
theorem le_range {size : ℚ} (small : size ≤ 2 ^ 53) : size ≤ RoundedCost.range Float :=
  small.trans ((le_mul_of_one_le_right (by positivity) one_le_error).trans precise)

end LinearAssignment.Binary64
