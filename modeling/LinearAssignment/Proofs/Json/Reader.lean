import LinearAssignment.Proofs.Json.Library
import LinearAssignment.Proofs.Json.Skip
import LinearAssignment.Proofs.Json.Text

/-! # Values of an expected kind are read back

Each reader reads the values of its kind from what is written of them, behind any blanks. A value
that is not `null` is told from it by its first character.
-/

namespace LinearAssignment.Json

variable {α : Type} {text : List Char}

/-! ## Scalars -/

theorem reads_readBoolean (value : Bool) :
    Reads readBoolean (scalarText (.boolean value)) value := by
  intro rest _
  cases value with
  | true =>
    have word : skipWord ['r', 'u', 'e'] ('r' :: 'u' :: 'e' :: rest) = .ok rest :=
      skipWord_append ['r', 'u', 'e'] rest
    have start : skipBlank ('t' :: 'r' :: 'u' :: 'e' :: rest) = 't' :: 'r' :: 'u' :: 'e' :: rest :=
      skipBlank_cons rfl _
    simp [scalarText, readBoolean, start, word]
  | false =>
    have word : skipWord ['a', 'l', 's', 'e'] ('a' :: 'l' :: 's' :: 'e' :: rest) = .ok rest :=
      skipWord_append ['a', 'l', 's', 'e'] rest
    have start : skipBlank ('f' :: 'a' :: 'l' :: 's' :: 'e' :: rest) =
        'f' :: 'a' :: 'l' :: 's' :: 'e' :: rest := skipBlank_cons rfl _
    simp [scalarText, readBoolean, start, word]

/-- A number that is accepted is read where it starts. -/
private theorem readNumberAs_append {expected : String} {accept : Number → Except ReadError α}
    {number : Number} {value : α} {rest : List Char} {c : Char} {others : List Char}
    (start : text = c :: others) (sort : c = '-' ∨ c.isDigit = true) (starts : StartsValue text)
    (read : readNumber (text ++ rest) = .ok (number, rest)) (accepted : accept number = .ok value) :
    readNumberAs expected accept (text ++ rest) = .ok (value, rest) := by
  obtain ⟨_, _, same, visible, _⟩ := starts
  subst start
  obtain ⟨rfl, rfl⟩ := List.cons.inj same
  have stay : skipBlank (c :: others ++ rest) = c :: (others ++ rest) := skipBlank_cons visible _
  rw [List.cons_append] at read stay ⊢
  have sort' : (decide (c = '-') || c.isDigit) = true := by simpa using sort
  simp [readNumberAs, stay, sort', read, accepted]

theorem reads_readNatural {expected : String} {bound value : ℕ} (fits : bound ≤ UInt64.size)
    (small : value < bound) :
    Reads (readNatural expected bound) (Decimal.digitText value) value := by
  intro rest stops
  obtain ⟨nonempty, all⟩ := Decimal.digits_digitText value
  obtain ⟨c, others, start⟩ := List.exists_cons_of_ne_nil nonempty
  have digit := all c (start ▸ List.mem_cons_self)
  refine readNumberAs_append start (.inr digit) (start ▸ .of_isDigit digit others)
    (readNumber_digitText (small.trans_le fits) stops) ?_
  dsimp only
  rw [if_pos small]

/-- A finite number is read from the spelling in which it is written. -/
theorem reads_readReal {value : Float} (finite : value.isFinite = true) :
    Reads readReal (numberText value) value := by
  intro rest stops
  obtain ⟨spelling, written, valid, read⟩ := exists_numberText finite
  obtain ⟨c, others, start, sort⟩ := exists_start valid
  obtain ⟨number, found, same⟩ := exists_readNumber valid (read ▸ finite) stops
  rw [written]
  exact readNumberAs_append start sort (startsValue_number valid) found
    (congrArg Except.ok (same.trans read))

/-! ## Values or `null` -/

private theorem skipBlank_null (rest : List Char) :
    skipBlank ('n' :: 'u' :: 'l' :: 'l' :: rest) = 'n' :: 'u' :: 'l' :: 'l' :: rest :=
  skipBlank_cons rfl _

private theorem skipWord_null (rest : List Char) :
    skipWord ['u', 'l', 'l'] ('u' :: 'l' :: 'l' :: rest) = .ok rest :=
  skipWord_append ['u', 'l', 'l'] rest

/-- `null` is refused in place of a number. -/
theorem refuses_readReal : Refuses readReal nullText (.mismatch (.type .null "f64")) := by
  intro rest _
  simp [readReal, readNumberAs, skipBlank_null, unexpected, skipWord_null]

theorem reads_readOptional_none (item : Reader α) : Reads (readOptional item) nullText none := by
  intro rest _
  simp [readOptional, skipBlank_null, skipWord_null]

theorem yields_readOptional_some {item : Reader α} {outcome : Except ReadError α}
    (json : JsonText text) (present : text ≠ nullText) (yields : Yields item text outcome) :
    Yields (readOptional item) text (outcome.map some) := by
  intro rest stops
  have read := yields rest stops
  obtain ⟨c, others, start, visible, _⟩ := json.startsValue
  have other := json.head_ne present start
  have stay : skipBlank (text ++ rest) = c :: (others ++ rest) := by
    rw [start]
    exact skipBlank_cons visible _
  rw [start, List.cons_append] at read
  rw [readOptional, stay]
  cases outcome <;> simp [other, read, Except.map]

/-! ## Values behind a colon -/

/-- A reader that passes over the blanks before its value. -/
def PassesBlanks (read : Reader α) : Prop :=
  ∀ {blanks : List Char}, Blanks blanks → ∀ text, read (blanks ++ text) = read text

theorem passesBlanks_readNatural (expected : String) (bound : ℕ) :
    PassesBlanks (readNatural expected bound) := fun blank text => by
  rw [readNatural, readNumberAs, readNumberAs, skipBlank_append blank]

/-- The value of a member is read behind its colon. -/
theorem Yields.member {read : Reader α} {outcome : Except ReadError α} {written : List Char}
    (yields : Yields read text outcome) (passes : PassesBlanks read)
    (laid : ColonText text written) : Yields (readMember read) written outcome := by
  intro rest stops
  obtain ⟨behind, between, blank, blank', rfl⟩ := laid
  have here := yields rest stops
  rw [← passes blank', ← List.append_assoc] at here
  simpa [readMember, skipColon_append blank] using here

/-! ## Durations -/

private theorem takes_seconds {seconds : ℕ} (fits : seconds < UInt64.size) (after : Option ℕ) :
    Takes durationMember (none, after) "secs" (Decimal.digitText seconds)
      (some seconds, after) := by
  intro written colon rest stops
  have yields : Yields readSeconds (Decimal.digitText seconds) (.ok seconds) :=
    reads_readNatural le_rfl fits
  have read := yields.member (passesBlanks_readNatural "u64" _) colon rest stops
  simp [read, Except.map]

private theorem takes_nanoseconds {nanoseconds : ℕ} (fits : nanoseconds < UInt32.size)
    (before : Option ℕ) :
    Takes durationMember (before, none) "nanos" (Decimal.digitText nanoseconds)
      (before, some nanoseconds) := by
  intro written colon rest stops
  have yields : Yields readNanoseconds (Decimal.digitText nanoseconds) (.ok nanoseconds) :=
    reads_readNatural (by decide) fits
  have read := yields.member (passesBlanks_readNatural "u32" _) colon rest stops
  simp [read, Except.map]

theorem reads_readDuration {value : Duration} (normal : Normal value) (layout : Layout)
    (level : ℕ) : Reads readDuration (textAt layout level (ofDuration value)) value := by
  intro rest _
  obtain ⟨inner, start, laid⟩ := textAt_object layout level
    [("secs", .natural value.seconds), ("nanos", .natural value.nanoseconds)]
  have digits (n : ℕ) : textAt layout (level + 1) (.natural n) = Decimal.digitText n := by
    cases layout <;> rfl
  simp only [List.map_cons, List.map_nil, digits] at laid
  have small : value.nanoseconds < UInt32.size := normal.nanoseconds.trans (by decide)
  have path : Path durationMember (none, none)
      [("secs", Decimal.digitText value.seconds), ("nanos", Decimal.digitText value.nanoseconds)]
      (.ok (some value.seconds, some value.nanoseconds)) :=
    .cons (takes_seconds normal.seconds none) (.cons (takes_nanoseconds small _) .nil)
  have read := readMembers_append laid path rest
  have brace : skipBlank ('\x7b' :: (inner ++ rest)) = '\x7b' :: (inner ++ rest) :=
    skipBlank_cons rfl _
  have whole : Duration.ofParts? value.seconds value.nanoseconds = some value := by
    have none : value.nanoseconds / Duration.nanosecondsPerSecond = 0 :=
      Nat.div_eq_of_lt normal.nanoseconds
    rw [Duration.ofParts?, none, Nat.mod_eq_of_lt normal.nanoseconds, add_zero]
    exact if_pos normal.seconds
  rw [ofDuration, start]
  simp [readDuration, brace, read, Except.map, durationOf, whole]

end LinearAssignment.Json
