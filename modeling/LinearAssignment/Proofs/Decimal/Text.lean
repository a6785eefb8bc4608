import LinearAssignment.Proofs.Decimal.Shortest
import LinearAssignment.Proofs.Decimal.Spelling

/-! # Numbers and their texts

Whatever a format decides, its texts are spellings of the shortest decimals, which are rounded to
the number that was written. So every number but the undefined one is read back from its text.
-/

namespace LinearAssignment.Decimal

open Float.Model Float.Model.UnpackedFloat
open Binary64 (Canonical Covers eq_of_unpack wellFormed_unpack unpack_pack unpack_ofScientific)

/-! ## Reading a numeral -/

/-- The value of a numeral without its sign. -/
def Numeral.magnitude (numeral : Numeral) : ℚ :=
  numeral.significand * 10 ^ (numeral.power - numeral.fraction.length)

private theorem unpack_neg {x : Float} {sign : Sign} {mantissa : ℕ} {exponent : ℤ}
    {positive : 0 < mantissa} (read : x.toModel.unpack = .finite sign mantissa exponent positive) :
    (-x).toModel.unpack = .finite (-sign) mantissa exponent positive := by
  have word : (-x).toModel.unpack =
      (Float.Model.pack (UnpackedFloat.neg x.toModel.unpack)).unpack := rfl
  have wellFormed := wellFormed_unpack x.toModel
  rw [read] at wellFormed word
  exact word.trans (unpack_pack wellFormed)

/-- A numeral is read as the number of its sign that covers its magnitude. -/
theorem Numeral.unpack_toFloat {numeral : Numeral} {mantissa : ℕ} {exponent : ℤ}
    (canonical : Canonical mantissa exponent) (positive : 0 < mantissa)
    (covers : Covers mantissa exponent numeral.magnitude) :
    numeral.toFloat.toModel.unpack =
      .finite (if numeral.negative then .negative else .positive) mantissa exponent positive := by
  set power : ℤ := numeral.power - numeral.fraction.length with power_eq
  have signed : (if decide (power < 0) = true then -(power.natAbs : ℤ) else power.natAbs) =
      power := by
    split_ifs with below
    · have := of_decide_eq_true below
      omega
    · have : ¬ power < 0 := fun below' => below (decide_eq_true below')
      omega
  rw [magnitude, ← power_eq, ← signed] at covers
  have read := unpack_ofScientific canonical positive covers
  rw [toFloat, ← power_eq]
  cases numeral.negative with
  | false => exact read
  | true => exact unpack_neg read

/-! ## Writing a numeral -/

/-- A spelling of a value as an unsigned text, with a point or a power of ten where one is due. -/
structure Spells (spelling : Spelling) (text : List Char) (value : ℚ) (wholePoint : Bool) :
    Prop where
  valid : spelling.Valid
  unsigned : spelling.unsigned = text
  magnitude : spelling.numeral.magnitude = value
  integral : wholePoint = true → spelling.integral = false

private theorem wholeDigits_of_head {digits : List Char} (valid : Digits digits)
    (head : digits.head? ≠ some '0') : WholeDigits digits :=
  ⟨valid, fun _ zero => absurd (congrArg List.head? zero) head⟩

private theorem digits_append_zeros {digits : List Char} (valid : Digits digits) (zeros : ℕ) :
    Digits (digits ++ List.replicate zeros '0') := by
  refine ⟨List.append_ne_nil_of_left_ne_nil valid.nonempty _, fun c member => ?_⟩
  rcases List.mem_append.mp member with member | member
  · exact valid.all c member
  · rw [List.eq_of_mem_replicate member]
    rfl

variable {digits : List Char} (negative wholePoint : Bool)

/-- A whole number, with a point or without one. -/
theorem exists_spells_whole (valid : WholeDigits digits) :
    ∃ spelling : Spelling, spelling.negative = negative ∧
      Spells spelling (digits ++ if wholePoint then ['.', '0'] else []) (ofDigits digits)
        wholePoint := by
  cases wholePoint with
  | true =>
    have zero : ofDigits (digits ++ ['0']) = ofDigits digits * 10 ^ 1 :=
      ofDigits_append_zeros digits 1
    refine ⟨⟨negative, digits, some ['0'], none⟩, rfl, ⟨valid, ?_, ?_⟩, rfl, ?_, fun _ => rfl⟩
    · rintro _ ⟨⟩
      exact ⟨List.cons_ne_nil _ _, by simp⟩
    · rintro _ ⟨⟩
    · change (ofDigits (digits ++ ['0']) : ℚ) * 10 ^ (0 - ((1 : ℕ) : ℤ)) = _
      rw [zero, Nat.cast_mul, mul_assoc]
      norm_num
  | false =>
    refine ⟨⟨negative, digits, none, none⟩, rfl, ⟨valid, ?_, ?_⟩, rfl, ?_, fun absurd => ?_⟩
    · rintro _ ⟨⟩
    · rintro _ ⟨⟩
    · change (ofDigits (digits ++ []) : ℚ) * 10 ^ (0 - ((0 : ℕ) : ℤ)) = _
      simp
    · contradiction

/-- A number with a fraction. -/
private theorem exists_spells_fraction {whole fraction : List Char} (valid : WholeDigits whole)
    (valid' : Digits fraction) :
    ∃ spelling : Spelling, spelling.negative = negative ∧
      Spells spelling (whole ++ '.' :: fraction)
        (ofDigits (whole ++ fraction) * 10 ^ (-(fraction.length : ℤ))) wholePoint := by
  refine ⟨⟨negative, whole, some fraction, none⟩, rfl, ⟨valid, ?_, ?_⟩, ?_, ?_, fun _ => rfl⟩
  · rintro _ ⟨⟩
    exact valid'
  · rintro _ ⟨⟩
  · simp [Spelling.unsigned, Spelling.tail]
  · change (ofDigits (whole ++ fraction) : ℚ) * 10 ^ (0 - (fraction.length : ℤ)) = _
    rw [zero_sub]

variable {n : ℕ} (positive : 0 < n) (exponent : ℤ)

include positive

/-- Digits with the point in its place. -/
theorem exists_spells_writtenOut :
    ∃ spelling : Spelling, spelling.negative = negative ∧
      Spells spelling (writtenOut wholePoint (digitText n) exponent) (n * 10 ^ exponent)
        wholePoint := by
  have digits := digits_digitText n
  have head := head_digitText positive
  have value := ofDigits_digitText n
  generalize digitText n = text at digits head value
  rcases le_or_gt 0 exponent with whole | below
  · obtain ⟨zeros, rfl⟩ := Int.eq_ofNat_of_zero_le whole
    have head' : (text ++ List.replicate zeros '0').head? ≠ some '0' := by
      rwa [List.head?_append_of_ne_nil _ digits.nonempty]
    have spelled := exists_spells_whole negative wholePoint
      (wholeDigits_of_head (digits_append_zeros digits zeros) head')
    rw [ofDigits_append_zeros, value, Nat.cast_mul, Nat.cast_pow, Nat.cast_ofNat] at spelled
    rw [writtenOut, if_pos whole, zpow_natCast]
    exact spelled
  · obtain ⟨places, rfl⟩ : ∃ places : ℕ, exponent = -places := ⟨exponent.natAbs, by omega⟩
    rw [writtenOut, if_neg below.not_ge, neg_neg, Int.toNat_natCast]
    dsimp only
    split_ifs with within
    · have start : text.take (text.length - places) ≠ [] := by
        rw [ne_eq, List.take_eq_nil_iff, not_or]
        exact ⟨by omega, digits.nonempty⟩
      have finish : text.drop (text.length - places) ≠ [] := by
        rw [ne_eq, List.drop_eq_nil_iff]
        omega
      have spelled := exists_spells_fraction negative wholePoint
        (wholeDigits_of_head ⟨start, fun c member => digits.all c (List.mem_of_mem_take member)⟩
          (by rwa [List.head?_take, if_neg (by omega)]))
        ⟨finish, fun c member => digits.all c (List.mem_of_mem_drop member)⟩
      rw [List.take_append_drop, value, List.length_drop, Nat.sub_sub_self within.le] at spelled
      exact spelled
    · have zeros : Digits (List.replicate (places - text.length) '0' ++ text) := by
        refine ⟨List.append_ne_nil_of_right_ne_nil _ digits.nonempty, fun c member => ?_⟩
        rcases List.mem_append.mp member with member | member
        · rw [List.eq_of_mem_replicate member]
          rfl
        · exact digits.all c member
      have spelled := exists_spells_fraction negative wholePoint (wholeDigits_digitText 0) zeros
      have size : (List.replicate (places - text.length) '0' ++ text).length = places := by
        rw [List.length_append, List.length_replicate]
        omega
      have zero : digitText 0 = List.replicate 1 '0' := rfl
      rw [zero, ofDigits_zeros_append, ofDigits_zeros_append, value, size] at spelled
      exact spelled

omit positive in
private theorem value_powerText (power : ℤ) :
    (PowerText.mk false (some (decide (power < 0))) (digitText power.natAbs)).value = power := by
  change signedPower (decide (power < 0)) (digitText power.natAbs) = power
  rw [signedPower, ofDigits_digitText]
  split_ifs with below
  · have := of_decide_eq_true below
    omega
  · have : ¬ power < 0 := fun below' => below (decide_eq_true below')
    omega

omit positive in
/-- A digit, perhaps others behind a point, and a power of ten. -/
private theorem spells_power {first : Char} {fraction : Option (List Char)}
    (leading : WholeDigits [first]) (valid : ∀ digits ∈ fraction, Digits digits) (power : ℤ) :
    Spells
      ⟨negative, [first], fraction,
        some ⟨false, some (decide (power < 0)), digitText power.natAbs⟩⟩
      ([first] ++ (fraction.elim [] fun digits => '.' :: digits) ++
        'e' :: (if power < 0 then '-' else '+') :: digitText power.natAbs)
      (ofDigits ([first] ++ fraction.getD []) * 10 ^ (power - (fraction.getD []).length))
      wholePoint := by
  refine ⟨⟨leading, valid, ?_⟩, ?_, ?_, fun _ => ?_⟩
  · rintro _ ⟨⟩
    exact digits_digitText power.natAbs
  · by_cases below : power < 0 <;>
      simp [Spelling.unsigned, Spelling.tail, PowerText.text, below]
  · rw [Spelling.numeral, Numeral.magnitude, Option.elim_some, value_powerText]
    rfl
  · cases fraction <;> rfl

/-- One digit, the others behind a point, and a power of ten. -/
theorem exists_spells_scientific :
    ∃ spelling : Spelling, spelling.negative = negative ∧
      Spells spelling (scientific (digitText n) (exponent + (digitText n).length - 1))
        (n * 10 ^ exponent) wholePoint := by
  have digits := digits_digitText n
  have head := head_digitText positive
  have value := ofDigits_digitText n
  generalize digitText n = text at digits head value
  obtain ⟨first, others, rfl⟩ := List.exists_cons_of_ne_nil digits.nonempty
  have place : exponent + (first :: others).length - 1 = exponent + others.length := by
    rw [List.length_cons]
    omega
  have leading : WholeDigits [first] :=
    wholeDigits_of_head ⟨List.cons_ne_nil _ _, fun c member => digits.all c (by simp_all)⟩ head
  rw [place, ← value]
  cases others with
  | nil =>
    have spelled := spells_power negative wholePoint leading (nofun : ∀ digits ∈ none, Digits digits) exponent
    exact ⟨_, rfl, by simpa [scientific] using spelled⟩
  | cons second others =>
    have rest : Digits (second :: others) :=
      ⟨List.cons_ne_nil _ _, fun c member => digits.all c (List.mem_cons_of_mem _ member)⟩
    have valid : ∀ digits ∈ some (second :: others), Digits digits := by
      rintro _ ⟨⟩
      exact rest
    have spelled := spells_power negative wholePoint leading valid
      (exponent + (second :: others).length)
    rw [Option.getD_some, add_sub_cancel_right] at spelled
    exact ⟨_, rfl, by simpa [scientific] using spelled⟩

omit positive

/-- A magnitude is written as its shortest decimal. -/
theorem Format.exists_spells_magnitude (format : Format) {m : Magnitude} (stored : m.Stored) :
    ∃ spelling : Spelling, spelling.negative = negative ∧
      Covers m.significand m.exponent spelling.numeral.magnitude ∧
      spelling.unsigned = format.magnitude m ∧ spelling.Valid ∧
      (format.wholePoint = true → spelling.integral = false) := by
  have reads := reads_shortest stored format.tie
  rw [Format.magnitude]
  generalize shortest format.tie m = decimal at reads
  have positive : 0 < decimal.digits := by
    by_contra none
    have zero : decimal.digits = 0 := by omega
    have some := reads.pos stored.canonical stored.positive
    simp [zero] at some
  split_ifs with full
  · obtain ⟨spelling, sign, valid, text, value, integral⟩ :=
      exists_spells_writtenOut negative format.wholePoint positive decimal.exponent
    exact ⟨spelling, sign, value ▸ reads, text, valid, integral⟩
  · obtain ⟨spelling, sign, valid, text, value, integral⟩ :=
      exists_spells_scientific negative format.wholePoint positive decimal.exponent
    exact ⟨spelling, sign, value ▸ reads, text, valid, integral⟩

/-! ## Reading back -/

/-- The text of a number spells that number. -/
structure Format.Writes (format : Format) (x : Float) (spelling : Spelling) : Prop where
  valid : spelling.Valid
  text : format.text x = String.ofList spelling.text
  toFloat : spelling.numeral.toFloat = x
  integral : format.wholePoint = true → spelling.integral = false

private theorem zero_toFloat (wholePoint : Bool) {x : Float} {sign : Sign}
    (read : x.toModel.unpack = .zero sign) :
    (Numeral.mk (sign == .negative) ['0'] (if wholePoint then ['0'] else []) 0).toFloat = x := by
  refine eq_of_unpack ?_
  rw [read]
  cases sign <;> cases wholePoint <;> rfl

theorem Format.exists_writes (format : Format) {x : Float} (finite : x.isFinite = true) :
    ∃ spelling, format.Writes x spelling := by
  have reading := Reading.ofFloat_eq x
  have finite' : x.toModel.unpack.isFinite = true := finite
  cases read : x.toModel.unpack with
  | notANumber => exact absurd finite' (by rw [read]; exact Bool.false_ne_true)
  | infinity sign => exact absurd finite' (by rw [read]; exact Bool.false_ne_true)
  | zero sign =>
    rw [read] at reading
    have zero := zero_toFloat format.wholePoint read
    cases point : format.wholePoint with
    | true =>
      rw [point] at zero
      refine ⟨⟨sign == .negative, ['0'], some ['0'], none⟩, ⟨wholeDigits_digitText 0, ?_, ?_⟩, ?_,
        zero, fun _ => rfl⟩
      · rintro _ ⟨⟩
        exact digits_digitText 0
      · rintro _ ⟨⟩
      · rw [Format.text, reading, Reading.ofUnpacked, point]
        rfl
    | false =>
      rw [point] at zero
      refine ⟨⟨sign == .negative, ['0'], none, none⟩, ⟨wholeDigits_digitText 0, ?_, ?_⟩, ?_,
        zero, fun whole => ?_⟩
      · rintro _ ⟨⟩
      · rintro _ ⟨⟩
      · rw [Format.text, reading, Reading.ofUnpacked, point]
        rfl
      · rw [point] at whole
        contradiction
  | finite sign mantissa exponent positive =>
    have stored := stored_of_finite read
    rw [read] at reading
    obtain ⟨spelling, negative, covers, text, valid, integral⟩ :=
      format.exists_spells_magnitude (sign == .negative) stored
    refine ⟨spelling, valid, ?_, ?_, integral⟩
    · rw [Format.text, reading, Reading.ofUnpacked, Spelling.text, text, negative]
    · refine eq_of_unpack ?_
      rw [Numeral.unpack_toFloat stored.canonical positive covers, read]
      change UnpackedFloat.finite (if spelling.negative = true then _ else _) _ _ _ = _
      rw [negative]
      cases sign <;> rfl

/-- Every number is read back from its text; only the undefined number has no text of its own. -/
theorem Format.parse?_text (format : Format) {x : Float} (number : x.isNaN = false) :
    parse? (format.text x) = some x := by
  rcases Binary64.finite_or_infinity number with finite | ⟨sign, infinite⟩
  · obtain ⟨spelling, writes⟩ := format.exists_writes finite
    rw [writes.text, spelling.parse?_text writes.valid, writes.toFloat]
  · have reading := Reading.ofFloat_eq x
    rw [infinite] at reading
    rw [Format.text, reading, Reading.ofUnpacked]
    cases sign with
    | positive =>
      have read : parse? "inf" = some Binary64.infinity := by decide +kernel
      exact read.trans (congrArg some (eq_of_unpack infinite.symm))
    | negative =>
      have read : parse? "-inf" = some (-Binary64.infinity) := by decide +kernel
      exact read.trans (congrArg some (eq_of_unpack infinite.symm))

end LinearAssignment.Decimal
