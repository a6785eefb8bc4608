import LinearAssignment.Decimal.Format
import LinearAssignment.Decimal.Numeral
import Mathlib

/-! # Spelled numbers

A spelling is a numeral as it stands in a text: digits without a superfluous leading zero, a
fraction and a power of ten where they are written. The text of a spelling is read as the numeral
that it spells, and the digits of a natural number spell that number.
-/

namespace LinearAssignment.Decimal

/-! ## Digits -/

/-- Some decimal digits. -/
structure Digits (digits : List Char) : Prop where
  nonempty : digits ≠ []
  all : ∀ c ∈ digits, c.isDigit = true

/-- Digits without a superfluous leading zero. -/
structure WholeDigits (digits : List Char) : Prop extends Digits digits where
  leading : ∀ rest, digits = '0' :: rest → rest = []

/-- A text that does not go on with a digit. -/
def StopsDigits (text : List Char) : Prop := ∀ c ∈ text.head?, c.isDigit = false

variable {digits rest : List Char} {n : ℕ}

theorem spanDigits_append (all : ∀ c ∈ digits, c.isDigit = true) (stops : StopsDigits rest) :
    spanDigits (digits ++ rest) = (digits, rest) := by
  have stay : rest.takeWhile Char.isDigit = [] ∧ rest.dropWhile Char.isDigit = rest := by
    cases rest with
    | nil => exact ⟨rfl, rfl⟩
    | cons c rest =>
      have other : c.isDigit = false := stops c rfl
      exact ⟨List.takeWhile_cons_of_neg (by simp [other]),
        List.dropWhile_cons_of_neg (by simp [other])⟩
  rw [spanDigits, List.span_eq_takeWhile_dropWhile, List.takeWhile_append_of_pos all,
    List.dropWhile_append_of_pos all, stay.1, stay.2, List.append_nil]

theorem ofDigits_digitText (n : ℕ) : ofDigits (digitText n) = n :=
  Nat.ofDigitChars_ten_toDigits

theorem ofDigits_zeros_append (zeros : ℕ) (digits : List Char) :
    ofDigits (List.replicate zeros '0' ++ digits) = ofDigits digits := by
  have start : Nat.ofDigitChars 10 (List.replicate zeros '0') 0 = 0 := by
    rw [Nat.ofDigitChars_replicate_zero, mul_zero]
  change Nat.ofDigitChars 10 _ 0 = Nat.ofDigitChars 10 digits 0
  rw [Nat.ofDigitChars_append, start]

theorem ofDigits_append_zeros (digits : List Char) (zeros : ℕ) :
    ofDigits (digits ++ List.replicate zeros '0') = ofDigits digits * 10 ^ zeros := by
  change Nat.ofDigitChars 10 _ 0 = Nat.ofDigitChars 10 digits 0 * 10 ^ zeros
  rw [Nat.ofDigitChars_append, Nat.ofDigitChars_replicate_zero, mul_comm]

theorem digits_digitText (n : ℕ) : Digits (digitText n) :=
  ⟨Nat.toDigits_ne_nil, fun _ => Nat.isDigit_of_mem_toDigits (by norm_num) le_rfl⟩

/-- The digits of a number other than zero do not start with zero. -/
theorem head_digitText (positive : 0 < n) : (digitText n).head? ≠ some '0' := by
  induction n using Nat.strong_induction_on with
  | _ n ih =>
    rw [digitText]
    rcases lt_or_ge n 10 with small | large
    · rw [Nat.toDigits_of_lt_base small]
      interval_cases n <;> decide
    · rw [Nat.toDigits_of_base_le (by norm_num) large,
        List.head?_append_of_ne_nil _ Nat.toDigits_ne_nil]
      exact ih (n / 10) (by omega) (by omega)

theorem wholeDigits_digitText (n : ℕ) : WholeDigits (digitText n) := by
  refine ⟨digits_digitText n, fun rest zero => ?_⟩
  rcases n.eq_zero_or_pos with rfl | positive
  · exact (List.cons.inj zero).2.symm
  · exact absurd (congrArg List.head? zero) (head_digitText positive)

/-! ## Spellings -/

/-- A power of ten as it is written. -/
structure PowerText where
  upper : Bool
  /-- Whether the sign is a minus, if there is one. -/
  sign : Option Bool
  digits : List Char

namespace PowerText

def text (power : PowerText) : List Char :=
  (if power.upper then 'E' else 'e') ::
    match power.sign with
    | some true => '-' :: power.digits
    | some false => '+' :: power.digits
    | none => power.digits

def value (power : PowerText) : ℤ := signedPower (power.sign.getD false) power.digits

end PowerText

/-- A number as it is written. -/
structure Spelling where
  negative : Bool
  whole : List Char
  fraction : Option (List Char)
  power : Option PowerText

namespace Spelling

variable {spelling : Spelling}

/-- What follows the digits before the point. -/
def tail (spelling : Spelling) : List Char :=
  (spelling.fraction.elim [] fun digits => '.' :: digits) ++
    spelling.power.elim [] PowerText.text

/-- The text of a spelling without its sign. -/
def unsigned (spelling : Spelling) : List Char := spelling.whole ++ spelling.tail

def text (spelling : Spelling) : List Char :=
  if spelling.negative then '-' :: spelling.unsigned else spelling.unsigned

/-- The numeral that is spelled. -/
def numeral (spelling : Spelling) : Numeral :=
  ⟨spelling.negative, spelling.whole, spelling.fraction.getD [],
    spelling.power.elim 0 PowerText.value⟩

/-- Whether there is neither a point nor a power of ten. -/
def integral (spelling : Spelling) : Bool := spelling.fraction.isNone && spelling.power.isNone

/-- Digits stand wherever they are asked for. -/
structure Valid (spelling : Spelling) : Prop where
  whole : WholeDigits spelling.whole
  fraction : ∀ digits ∈ spelling.fraction, Digits digits
  power : ∀ power ∈ spelling.power, Digits power.digits

theorem Valid.exists_whole (valid : spelling.Valid) :
    ∃ c digits, spelling.whole = c :: digits ∧ c.isDigit = true := by
  obtain ⟨c, digits, whole⟩ := List.exists_cons_of_ne_nil valid.whole.nonempty
  exact ⟨c, digits, whole, valid.whole.all c (whole ▸ List.mem_cons_self)⟩

end Spelling

/-! ## Reading a spelling -/

private theorem isDigit_ne {c d : Char} (digit : c.isDigit = true) (other : d.isDigit = false) :
    c ≠ d := by
  rintro rfl
  rw [other] at digit
  contradiction

theorem PowerText.stopsDigits_append (power : PowerText) (rest : List Char) :
    StopsDigits (power.text ++ rest) := by
  rintro c head
  obtain rfl := Option.some.inj head
  cases power.upper <;> rfl

theorem trailingPower?_text {power : PowerText} (valid : Digits power.digits) :
    trailingPower? power.text = some power.value := by
  obtain ⟨upper, sign, digits⟩ := power
  obtain ⟨nonempty, all⟩ := valid
  have every : digits.all Char.isDigit = true := List.all_eq_true.mpr all
  obtain ⟨c, digits, rfl⟩ := List.exists_cons_of_ne_nil nonempty
  have first := all c List.mem_cons_self
  have notMinus := isDigit_ne first (d := '-') rfl
  have notPlus := isDigit_ne first (d := '+') rfl
  cases upper <;> rcases sign with _ | _ | _ <;>
    simp [trailingPower?, PowerText.text, PowerText.value, every, notMinus, notPlus]

namespace Spelling

variable {spelling : Spelling}

private theorem stopsDigits_power (power : Option PowerText) :
    StopsDigits (power.elim [] PowerText.text) := by
  cases power with
  | none => rintro c ⟨⟩
  | some power => simpa using power.stopsDigits_append []

theorem stopsDigits_tail (spelling : Spelling) : StopsDigits spelling.tail := by
  rw [tail]
  cases spelling.fraction with
  | none => exact stopsDigits_power spelling.power
  | some fraction =>
    rintro c ⟨⟩
    rfl

private theorem trailingPower?_power (valid : spelling.Valid) :
    trailingPower? (spelling.power.elim [] PowerText.text) =
      some (spelling.power.elim 0 PowerText.value) := by
  cases written : spelling.power with
  | none => rfl
  | some power => exact trailingPower?_text (valid.power power written)

theorem unsigned?_unsigned (valid : spelling.Valid) :
    unsigned? spelling.negative spelling.unsigned = some spelling.numeral := by
  have nonempty := List.isEmpty_eq_false_iff.mpr valid.whole.nonempty
  have read := spanDigits_append valid.whole.all spelling.stopsDigits_tail
  have power := trailingPower?_power valid
  rw [unsigned?, unsigned, read, numeral]
  cases written : spelling.fraction with
  | some fraction =>
    have read' := spanDigits_append (valid.fraction fraction written).all
      (stopsDigits_power spelling.power)
    simp [tail, written, read', nonempty, power]
  | none =>
    cases behind : spelling.power with
    | none => simp [tail, written, behind, nonempty, trailingPower?]
    | some text =>
      rw [behind] at power
      obtain ⟨upper, sign, digits⟩ := text
      cases upper <;> simp_all [tail, PowerText.text]

theorem parse?_text (valid : spelling.Valid) :
    parse? (String.ofList spelling.text) = some spelling.numeral.toFloat := by
  have read := unsigned?_unsigned valid
  obtain ⟨c, digits, whole, digit⟩ := valid.exists_whole
  have notMinus := isDigit_ne digit (d := '-') rfl
  have notPlus := isDigit_ne digit (d := '+') rfl
  have first : spelling.unsigned = c :: (digits ++ spelling.tail) := by
    rw [unsigned, whole]
    rfl
  rw [parse?, String.toList_ofList, text]
  cases negative : spelling.negative with
  | true =>
    rw [negative] at read
    simp only [if_true, read]
  | false =>
    rw [negative] at read
    rw [first] at read ⊢
    simp [notMinus, notPlus, read]

end Spelling

end LinearAssignment.Decimal
