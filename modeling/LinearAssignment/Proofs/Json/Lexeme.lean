import LinearAssignment.Json.Reader
import LinearAssignment.Proofs.Decimal.Text
import LinearAssignment.Proofs.Json.Grammar

/-! # The smallest parts are read back

Blanks are passed over, and a word, a number or a string is read up to its end, whatever follows a
word or a string. A number ends where a character follows that cannot go on with one, which is so of
everything that may stand behind a value.
-/

namespace LinearAssignment.Json

open Decimal (Spelling PowerText Digits WholeDigits StopsDigits)

variable {text rest : List Char}

/-! ## Results -/

@[simp]
theorem ok_bind {α β : Type} (value : α) (next : α → Except ReadError β) :
    (Except.ok value >>= next) = next value := rfl

@[simp]
theorem error_bind {α β : Type} (problem : ReadError) (next : α → Except ReadError β) :
    (Except.error problem >>= next) = .error problem := rfl

@[simp]
theorem pure_eq_ok {α : Type} (value : α) : (pure value : Except ReadError α) = .ok value := rfl

/-- A budget that is not used up has a step left. -/
theorem exists_budget {spent budget : ℕ} (enough : spent < budget) :
    ∃ left, budget = left + 1 :=
  Nat.exists_eq_add_one_of_ne_zero (Nat.ne_zero_of_lt enough)

/-! ## Blanks and words -/

theorem skipBlank_append {blanks : List Char} (blank : Blanks blanks) (text : List Char) :
    skipBlank (blanks ++ text) = skipBlank text :=
  List.dropWhile_append_of_pos blank

theorem skipBlank_cons {c : Char} (visible : isBlank c = false) (text : List Char) :
    skipBlank (c :: text) = c :: text :=
  List.dropWhile_cons_of_neg (by simp [visible])

theorem skipWord_append (word rest : List Char) : skipWord word (word ++ rest) = .ok rest := by
  induction word with
  | nil => rfl
  | cons c word ih =>
    rw [List.cons_append, skipWord, if_pos rfl]
    exact ih

/-! ## Numbers -/

theorem StopsNumber.stopsDigits (stops : StopsNumber rest) : StopsDigits rest :=
  fun c head => (stops c head).1

private theorem someDigits_append {digits : List Char} (valid : Digits digits)
    (stops : StopsDigits rest) : someDigits (digits ++ rest) = .ok (digits, rest) := by
  rw [someDigits, Decimal.spanDigits_append valid.all stops]
  cases digits with
  | nil => exact absurd rfl valid.nonempty
  | cons c digits => rfl

private theorem wholeDigits_append {digits : List Char} (valid : WholeDigits digits)
    (stops : StopsDigits rest) : wholeDigits (digits ++ rest) = .ok (digits, rest) := by
  obtain ⟨c, others, rfl⟩ := List.exists_cons_of_ne_nil valid.nonempty
  have digit := valid.all c List.mem_cons_self
  by_cases zero : c = '0'
  · subst zero
    obtain rfl := valid.leading others rfl
    cases rest with
    | nil => rfl
    | cons d rest =>
      have other : d.isDigit = false := stops d rfl
      simp [wholeDigits, other]
  · have read := Decimal.spanDigits_append valid.all stops
    rw [List.cons_append] at read ⊢
    rw [wholeDigits]
    · simp [digit, read]
    · simpa using zero

private theorem exponentPart_append {power : Option PowerText}
    (valid : ∀ written ∈ power, Digits written.digits) (stops : StopsNumber rest) :
    exponentPart (power.elim [] PowerText.text ++ rest) =
      .ok (power.map PowerText.value, rest) := by
  cases power with
  | none =>
    cases rest with
    | nil => rfl
    | cons c rest =>
      obtain ⟨_, _, notLower, notUpper⟩ := stops c rfl
      simp [exponentPart, notLower, notUpper]
  | some power =>
    obtain ⟨upper, sign, digits⟩ := power
    have read := someDigits_append (valid _ rfl) stops.stopsDigits
    obtain ⟨nonempty, all⟩ := valid _ rfl
    obtain ⟨c, others, rfl⟩ := List.exists_cons_of_ne_nil nonempty
    have digit := all c List.mem_cons_self
    have notMinus : c ≠ '-' := by rintro rfl; contradiction
    have notPlus : c ≠ '+' := by rintro rfl; contradiction
    rw [List.cons_append] at read
    cases upper <;> rcases sign with _ | _ | _ <;>
      simp [exponentPart, PowerText.text, PowerText.value, read, notMinus, notPlus]

private theorem stopsDigits_power (power : Option PowerText) (stops : StopsNumber rest) :
    StopsDigits (power.elim [] PowerText.text ++ rest) := by
  cases power with
  | none => exact stops.stopsDigits
  | some power => exact power.stopsDigits_append rest

private theorem fractionDigits_append {spelling : Spelling} (valid : spelling.Valid)
    (stops : StopsNumber rest) : fractionDigits (spelling.tail ++ rest) =
      .ok (spelling.fraction, spelling.power.elim [] PowerText.text ++ rest) := by
  rw [Spelling.tail]
  cases written : spelling.fraction with
  | some fraction =>
    have read := someDigits_append (valid.fraction fraction written)
      (stopsDigits_power spelling.power stops)
    simp only [Option.elim_some, List.cons_append, List.append_assoc, fractionDigits, read]
    rfl
  | none =>
    cases spelling.power with
    | some power =>
      obtain ⟨upper, sign, digits⟩ := power
      cases upper <;> rfl
    | none =>
      cases rest with
      | nil => rfl
      | cons c rest =>
        obtain ⟨_, notPoint, _⟩ := stops c rfl
        simp [fractionDigits, notPoint]

/-- A number is read as it is written, up to its end. -/
theorem readLiteral_append {spelling : Spelling} (valid : spelling.Valid)
    (stops : StopsNumber rest) : readLiteral (spelling.text ++ rest) =
      .ok (⟨spelling.numeral, spelling.integral⟩, rest) := by
  have stops' : StopsDigits (spelling.tail ++ rest) := by
    rw [Spelling.tail]
    cases spelling.fraction with
    | none => exact stopsDigits_power spelling.power stops
    | some fraction =>
      rintro c ⟨⟩
      rfl
  have read := wholeDigits_append valid.whole stops'
  have read' := fractionDigits_append valid stops
  have read'' := exponentPart_append valid.power stops
  obtain ⟨c, digits, whole, digit⟩ := valid.exists_whole
  have notMinus : c ≠ '-' := by rintro rfl; contradiction
  have start : spelling.text ++ rest =
      (if spelling.negative then ['-'] else []) ++ (spelling.whole ++ (spelling.tail ++ rest)) := by
    rw [Spelling.text, Spelling.unsigned]
    cases spelling.negative <;> simp
  have negative : ((spelling.text ++ rest).head? = some '-') ↔ spelling.negative = true := by
    rw [start]
    cases spelling.negative <;> simp [whole, notMinus]
  have body :
      (if spelling.negative then (spelling.text ++ rest).drop 1 else spelling.text ++ rest) =
        spelling.whole ++ (spelling.tail ++ rest) := by
    rw [start]
    cases spelling.negative <;> rfl
  simp only [readLiteral, negative, Bool.decide_eq_true, body, read, read', read'', ok_bind,
    pure_eq_ok, Spelling.numeral, Spelling.integral]
  cases spelling.fraction <;> cases spelling.power <;> rfl

private theorem toFloat_negative {magnitude : ℕ} (positive : 0 < magnitude) :
    (Number.negative (-magnitude)).toFloat = -Float.ofNat magnitude := by
  obtain ⟨below, rfl⟩ := Nat.exists_eq_add_one_of_ne_zero positive.ne'
  rfl

/-- A number has the value that it spells, also where it is an integer. -/
private theorem exists_value {spelling : Spelling}
    (finite : spelling.numeral.toFloat.isFinite = true) :
    ∃ number : Number, (NumberLiteral.mk spelling.numeral spelling.integral).value = .ok number ∧
      number.toFloat = spelling.numeral.toFloat := by
  obtain ⟨negative, whole, fraction, power⟩ := spelling
  by_cases integral : (fraction.isNone && power.isNone) = true
  · obtain ⟨none, none'⟩ := (Bool.and_eq_true _ _).mp integral
    obtain rfl := Option.isNone_iff_eq_none.mp none
    obtain rfl := Option.isNone_iff_eq_none.mp none'
    have value : (Decimal.Numeral.mk negative whole [] 0).toFloat =
        if negative then -Float.ofNat (Decimal.ofDigits whole)
        else Float.ofNat (Decimal.ofDigits whole) := by
      simp only [Decimal.Numeral.toFloat, Decimal.Numeral.significand, List.append_nil]
      rfl
    simp only [Spelling.numeral, Option.getD_none, Option.elim_none] at finite ⊢
    simp only [NumberLiteral.value, Spelling.integral, Option.isNone_none, Bool.true_and, finite,
      if_true]
    split_ifs with natural negated
    · simp only [Bool.and_eq_true, Bool.not_eq_true'] at natural
      refine ⟨_, rfl, ?_⟩
      rw [value, natural.1]
      rfl
    · simp only [Bool.and_eq_true, decide_eq_true_eq] at negated
      obtain ⟨⟨negative, positive⟩, _⟩ := negated
      refine ⟨_, rfl, ?_⟩
      rw [value, toFloat_negative positive, negative]
      rfl
    · exact ⟨_, rfl, rfl⟩
  · refine ⟨.real (Spelling.numeral ⟨negative, whole, fraction, power⟩).toFloat, ?_, rfl⟩
    simp only [NumberLiteral.value, Spelling.integral, integral, Bool.false_and,
      Bool.false_eq_true, if_false, finite, if_true]

/-- A finite number is read as its nearest value, however it is written. -/
theorem exists_readNumber {spelling : Spelling} (valid : spelling.Valid)
    (finite : spelling.numeral.toFloat.isFinite = true) (stops : StopsNumber rest) :
    ∃ number : Number, readNumber (spelling.text ++ rest) = .ok (number, rest) ∧
      number.toFloat = spelling.numeral.toFloat := by
  obtain ⟨number, value, same⟩ := exists_value finite
  refine ⟨number, ?_, same⟩
  simp only [readNumber, readLiteral_append valid stops, ok_bind, value, pure_eq_ok]

/-- A natural number that fits a word is read as it is, up to the end of its digits. -/
theorem readNumber_digitText {n : ℕ} (small : n < UInt64.size) (stops : StopsNumber rest) :
    readNumber (Decimal.digitText n ++ rest) = .ok (.natural n, rest) := by
  have valid : Spelling.Valid ⟨false, Decimal.digitText n, none, none⟩ :=
    ⟨Decimal.wholeDigits_digitText n, nofun, nofun⟩
  have text : Spelling.text ⟨false, Decimal.digitText n, none, none⟩ = Decimal.digitText n :=
    List.append_nil _
  have read := readLiteral_append valid stops
  rw [text] at read
  simp only [readNumber, read, ok_bind, NumberLiteral.value, Spelling.numeral, Spelling.integral,
    Decimal.ofDigits_digitText]
  simp [small]

/-! ## Strings -/

theorem readUnit_append {unit : ℕ} (hex : HexUnit unit text) (rest : List Char) :
    readUnit (text ++ rest) = .ok (unit, rest) := by
  obtain ⟨first, second, third, fourth⟩ := hex
  simp [readUnit, first, second, third, fourth]

private theorem readEscape_letter {c d : Char} (known : escapeLetter? d = some c)
    (rest : List Char) : readEscape (d :: rest) = .ok (c, rest) := by
  have other : d ≠ 'u' := by rintro rfl; contradiction
  rw [readEscape]
  · rw [known]
  · simpa using other

theorem readTextWithin_append {cs : List Char} (quoted : Quoted cs text) {budget : ℕ}
    (enough : text.length < budget) (reversed rest : List Char) :
    readTextWithin budget reversed (text ++ '"' :: rest) =
      .ok (String.ofList (reversed.reverse ++ cs), rest) := by
  induction quoted generalizing budget reversed with
  | nil =>
    obtain ⟨budget, rfl⟩ := exists_budget enough
    simp [readTextWithin]
  | @plain c cs text quote backslash printed others ih =>
    obtain ⟨budget, rfl⟩ := exists_budget enough
    rw [List.length_cons] at enough
    have next := ih (show text.length < budget by omega) (c :: reversed)
    simp [readTextWithin, printed.not_gt, next]
  | @letter c d cs text known others ih =>
    obtain ⟨budget, rfl⟩ := exists_budget enough
    rw [List.length_cons, List.length_cons] at enough
    have next := ih (show text.length < budget by omega) (c :: reversed)
    simp [readTextWithin, readEscape_letter known, next]
  | @unit unit digits cs text hex single others ih =>
    obtain ⟨budget, rfl⟩ := exists_budget enough
    simp only [List.length_cons, List.length_append] at enough
    have next := ih (show text.length < budget by omega) (Char.ofNat unit :: reversed)
    simp [readTextWithin, readEscape, readUnit_append hex, single, next]
  | @pair leading trailing digits digits' cs text hex hex' first second others ih =>
    obtain ⟨budget, rfl⟩ := exists_budget enough
    simp only [List.length_cons, List.length_append] at enough
    have next := ih (show text.length < budget by omega)
    have other : isTrailing leading = false := by
      simp only [isLeading, isTrailing, Bool.and_eq_true, decide_eq_true_eq, Bool.and_eq_false_iff,
        decide_eq_false_iff_not] at first ⊢
      omega
    simp [readTextWithin, readEscape, readTrailing, readUnit_append hex, readUnit_append hex',
      first, second, other, next]

/-- A string is read up to its closing quote. -/
theorem exists_readString {value : String} (literal : Literal value text) (rest : List Char) :
    ∃ inner, text ++ rest = '"' :: inner ∧ readString inner = .ok (value, rest) := by
  obtain ⟨inner, rfl, quoted⟩ := literal
  refine ⟨inner ++ '"' :: rest, by simp, ?_⟩
  have enough : inner.length < (inner ++ '"' :: rest).length := by simp
  rw [readString, readTextWithin_append quoted enough]
  simp

private theorem hexValue?_hexDigit : ∀ n : Fin 16, hexValue? (hexDigit n) = some n.val := by
  decide

private theorem quoted_escapedChar (c : Char) {cs : List Char} (others : Quoted cs text) :
    Quoted (c :: cs) (escapedChar c ++ text) := by
  rw [escapedChar.eq_def]
  split
  · exact .letter rfl others
  · exact .letter rfl others
  · exact .letter rfl others
  · exact .letter rfl others
  · exact .letter rfl others
  · exact .letter rfl others
  · exact .letter rfl others
  · rename_i quote backslash _ _ _ _ _
    split_ifs with control
    · have high := hexValue?_hexDigit ⟨c.toNat / 16, by omega⟩
      have low := hexValue?_hexDigit ⟨c.toNat % 16, by omega⟩
      have zero : hexValue? '0' = some 0 := rfl
      have unit := Quoted.unit (.digits zero zero high low) ?_ others
      · have value : ((0 * 16 + 0) * 16 + c.toNat / 16) * 16 + c.toNat % 16 = c.toNat := by omega
        simp only [value, Char.ofNat_toNat] at unit
        exact unit
      · simp only [isLeading, isTrailing, Bool.and_eq_false_iff, decide_eq_false_iff_not]
        omega
    · exact .plain quote backslash (not_lt.mp control) others

/-- Every string is between quotes as it is written. -/
theorem literal_textLiteral (value : String) : Literal value (textLiteral value) := by
  refine ⟨value.toList.flatMap escapedChar, rfl, ?_⟩
  induction value.toList with
  | nil => exact .nil
  | cons c cs ih =>
    rw [List.flatMap_cons]
    exact quoted_escapedChar c ih

end LinearAssignment.Json
