import LinearAssignment.Proofs.Json.Layout

/-! # Every JSON value is passed over

A value that nobody asked for may be any JSON text: numbers beyond every range, halves of surrogate
pairs and enclosures within one another to any depth. It is passed over to its end within the
budget, since no two steps take less than a character.
-/

namespace LinearAssignment.Json

open Decimal (Spelling)

variable {text rest : List Char}

/-! ## Scalars -/

private theorem skipStringWithin_append (inner : StringText text) {budget : ℕ}
    (enough : text.length < budget) (rest : List Char) :
    skipStringWithin budget (text ++ '"' :: rest) = .ok rest := by
  induction inner generalizing budget with
  | nil =>
    obtain ⟨budget, rfl⟩ := exists_budget enough
    simp [skipStringWithin]
  | @plain c text quote backslash printed others ih =>
    obtain ⟨budget, rfl⟩ := exists_budget enough
    have next := ih (Nat.succ_lt_succ_iff.mp enough)
    rw [List.cons_append, skipStringWithin]
    · rw [if_neg printed.not_gt]
      exact next
    · exact quote
    · exact fun eq _ => backslash eq
    · exact fun _ eq _ => backslash eq
    · exact fun _ _ eq _ => backslash eq
  | @letter c text known others ih =>
    obtain ⟨budget, rfl⟩ := exists_budget enough
    rw [List.length_cons, List.length_cons] at enough
    have next := ih (show text.length < budget by omega)
    have other : c ≠ 'u' := by rintro rfl; contradiction
    simp [skipStringWithin, known, next]
  | @unit unit digits text hex others ih =>
    obtain ⟨budget, rfl⟩ := exists_budget enough
    simp only [List.length_cons, List.length_append] at enough
    have next := ih (show text.length < budget by omega)
    simp [skipStringWithin, readUnit_append hex, next]

theorem skipString_append (inner : StringText text) (rest : List Char) :
    skipString (text ++ '"' :: rest) = .ok rest :=
  skipStringWithin_append inner (by simp) rest

/-! ## Passing over -/

/-- A value is passed over in at most two steps a character, whatever encloses it. -/
def Passes (text : List Char) : Prop :=
  ∃ steps, steps + 1 ≤ 2 * text.length ∧ ∀ budget enclosing blanks rest, Blanks blanks →
    StopsNumber rest → skipFrom (budget + steps + 1) .value enclosing (blanks ++ (text ++ rest)) =
      skipFrom budget .ended enclosing rest

/-- A value that holds no others is passed over in a step. -/
private theorem passes_of_skipScalar {c : Char} {others : List Char} (visible : isBlank c = false)
    (notBracket : c ≠ '[') (notBrace : c ≠ '\x7b')
    (skipped : ∀ rest, StopsNumber rest → skipScalar (c :: (others ++ rest)) = .ok rest) :
    Passes (c :: others) := by
  refine ⟨0, by rw [List.length_cons]; omega, fun budget enclosing blanks rest blank stops => ?_⟩
  have start : skipBlank (blanks ++ (c :: others ++ rest)) = c :: (others ++ rest) := by
    rw [skipBlank_append blank]
    exact skipBlank_cons visible _
  rw [add_zero, skipFrom, start]
  simp [skipped rest stops, notBracket, notBrace]

private theorem skipScalar_number {c : Char} (sort : c = '-' ∨ c.isDigit = true)
    (others : List Char) : skipScalar (c :: others) = skipNumber (c :: others) := by
  rcases sort with rfl | digit
  · rfl
  · rw [skipScalar]
    · simp [digit]
    all_goals rintro rfl; contradiction

private theorem passes_number {spelling : Spelling} (valid : spelling.Valid) :
    Passes spelling.text := by
  obtain ⟨c, others, start, sort⟩ := exists_start valid
  obtain ⟨_, _, same, visible, _⟩ := startsValue_number valid
  have skipped : ∀ rest, StopsNumber rest → skipScalar (c :: (others ++ rest)) = .ok rest := by
    intro rest stops
    rw [skipScalar_number sort, ← List.cons_append, ← start, skipNumber,
      readLiteral_append valid stops]
  rw [start] at same ⊢
  obtain ⟨rfl, rfl⟩ := List.cons.inj same
  refine passes_of_skipScalar visible ?_ ?_ skipped <;>
  · rintro rfl
    revert sort
    decide

/-! ## Enclosures -/

/-- An item of an array, or a member of an object behind any key. -/
def Enclosure.Item (enclosure : Enclosure) (value item : List Char) : Prop :=
  match enclosure with
  | .array => ItemText value item
  | .object => ∃ key, QuotedText key ∧ MemberText key value item

variable {enclosure : Enclosure} {value item : List Char}

/-- What comes before the value of an item is passed over up to blanks. -/
private theorem Enclosure.Item.exists_label (laid : enclosure.Item value item)
    (starts : StartsValue value) :
    ∃ blanks, Blanks blanks ∧ value.length ≤ item.length ∧ ∀ rest,
      (∃ c others, skipBlank (item ++ rest) = c :: others ∧ c ≠ enclosure.closing ∧
        ∃ blanks', Blanks blanks' ∧
          skipLabel enclosure (c :: others) = .ok (blanks' ++ (value ++ rest))) ∧
      skipLabel enclosure (item ++ rest) = .ok (blanks ++ (value ++ rest)) := by
  cases enclosure with
  | array =>
    obtain ⟨blanks, blank, rfl⟩ := laid
    obtain ⟨c, others, rfl, visible, _, notBracket, _⟩ := starts
    refine ⟨blanks, blank, by simp, fun rest =>
      ⟨⟨c, others ++ rest, ?_, notBracket, [], blanks_nil, rfl⟩, ?_⟩⟩
    · rw [List.append_assoc, skipBlank_append blank]
      exact skipBlank_cons visible _
    · rw [skipLabel, List.append_assoc]
  | object =>
    obtain ⟨_, ⟨inner, string, rfl⟩, before, behind, between, blank, blank', blank'', rfl⟩ := laid
    have label : ∀ rest,
        skipKey ('"' :: (inner ++ '"' :: (behind ++ ':' :: (between ++ (value ++ rest))))) =
          .ok (between ++ (value ++ rest)) := by
      intro rest
      have quote : ∀ text, skipBlank ('"' :: text) = '"' :: text := skipBlank_cons rfl
      rw [skipKey, quote]
      simp [skipString_append string, skipColon_append blank']
    refine ⟨between, blank'', ?_, fun rest =>
      ⟨⟨'"', _, ?_, by decide, between, blank'', label rest⟩, ?_⟩⟩
    · simp only [List.length_append, List.length_cons]
      omega
    · simp only [List.append_assoc, List.cons_append]
      rw [skipBlank_append blank]
      exact skipBlank_cons rfl _
    · rw [skipLabel, ← label rest]
      simp only [List.append_assoc, List.cons_append, skipKey, skipBlank_append blank]
      rfl

/-! ## Steps -/

section

variable {budget : ℕ} {outer : List Enclosure} {blanks next : List Char}

/-- An enclosure is opened. -/
private theorem skipFrom_open {opening : Char}
    (opens : (opening = '[' ∧ enclosure = .array) ∨ (opening = '\x7b' ∧ enclosure = .object))
    (blank : Blanks blanks) :
    skipFrom (budget + 1) .value outer (blanks ++ opening :: text) =
      skipFrom budget .opened (enclosure :: outer) text := by
  rcases opens with ⟨rfl, rfl⟩ | ⟨rfl, rfl⟩
  · have start : skipBlank (blanks ++ '[' :: text) = '[' :: text := by
      rw [skipBlank_append blank]
      exact skipBlank_cons rfl _
    simp [skipFrom, start]
  · have start : skipBlank (blanks ++ '\x7b' :: text) = '\x7b' :: text := by
      rw [skipBlank_append blank]
      exact skipBlank_cons rfl _
    simp [skipFrom, start]

private theorem skipBlank_closing (blank : Blanks blanks) :
    skipBlank (blanks ++ enclosure.closing :: text) = enclosure.closing :: text := by
  rw [skipBlank_append blank]
  cases enclosure <;> exact skipBlank_cons rfl _

/-- An enclosure that holds nothing is closed where it is opened. -/
private theorem skipFrom_opened_close (blank : Blanks blanks) :
    skipFrom (budget + 1) .opened (enclosure :: outer) (blanks ++ enclosure.closing :: text) =
      skipFrom budget .ended outer text := by
  simp [skipFrom, skipBlank_closing blank]

/-- An enclosure is closed behind its last value. -/
private theorem skipFrom_close (blank : Blanks blanks) :
    skipFrom (budget + 1) .ended (enclosure :: outer) (blanks ++ enclosure.closing :: text) =
      skipFrom budget .ended outer text := by
  have notComma : enclosure.closing ≠ ',' := by cases enclosure <;> decide
  simp [skipFrom, skipBlank_closing blank, notComma]

/-- The first value is where the enclosure is opened. -/
private theorem skipFrom_first {c : Char} {others : List Char}
    (start : skipBlank text = c :: others) (notClosing : c ≠ enclosure.closing)
    (label : skipLabel enclosure (c :: others) = .ok next) :
    skipFrom (budget + 1) .opened (enclosure :: outer) text =
      skipFrom budget .value (enclosure :: outer) next := by
  simp [skipFrom, start, notClosing, label]

/-- Another value is behind a comma. -/
private theorem skipFrom_next (blank : Blanks blanks)
    (label : skipLabel enclosure text = .ok next) :
    skipFrom (budget + 1) .ended (enclosure :: outer) (blanks ++ ',' :: text) =
      skipFrom budget .value (enclosure :: outer) next := by
  have comma : skipBlank (blanks ++ ',' :: text) = ',' :: text := by
    rw [skipBlank_append blank]
    exact skipBlank_cons rfl _
  simp [skipFrom, comma, label]

end

variable {values items : List (List Char)}

private theorem Enclosure.closes (enclosure : Enclosure) :
    enclosure.closing = ']' ∨ enclosure.closing = '\x7d' := by
  cases enclosure
  · exact .inl rfl
  · exact .inr rfl

private theorem skipFrom_continued (laid : Continued enclosure.closing items text)
    (each : List.Forall₂ enclosure.Item values items)
    (passes : ∀ value ∈ values, StartsValue value ∧ Passes value) :
    ∃ steps, steps ≤ 2 * text.length ∧ ∀ budget outer rest,
      skipFrom (budget + steps) .ended (enclosure :: outer) (text ++ rest) =
        skipFrom budget .ended outer rest := by
  induction laid generalizing values with
  | close blank =>
    refine ⟨1, by simp; omega, fun budget outer rest => ?_⟩
    rw [List.append_assoc]
    exact skipFrom_close blank
  | @next blanks item text items blank more ih =>
    obtain ⟨value, values, laid, others, rfl⟩ := List.forall₂_cons_right_iff.mp each
    obtain ⟨starts, steps, few, passed⟩ := passes value List.mem_cons_self
    obtain ⟨blanks', blank', shorter, label⟩ := laid.exists_label starts
    obtain ⟨steps', few', passed'⟩ :=
      ih others fun value member => passes value (List.mem_cons_of_mem _ member)
    refine ⟨steps' + steps + 2, ?_, fun budget outer rest => ?_⟩
    · simp only [List.length_append, List.length_cons]
      omega
    · rw [List.append_assoc, List.cons_append, List.append_assoc]
      calc skipFrom (budget + (steps' + steps + 2)) .ended (enclosure :: outer)
            (blanks ++ ',' :: (item ++ (text ++ rest)))
        _ = skipFrom (budget + steps' + steps + 1) .value (enclosure :: outer)
            (blanks' ++ (value ++ (text ++ rest))) := by
          rw [show budget + (steps' + steps + 2) = budget + steps' + steps + 1 + 1 by omega]
          exact skipFrom_next blank (label _).2
        _ = skipFrom (budget + steps') .ended (enclosure :: outer) (text ++ rest) :=
          passed _ _ _ _ blank' (more.stopsNumber enclosure.closes rest)
        _ = skipFrom budget .ended outer rest := passed' ..

/-- An enclosure is passed over if what it holds is. -/
private theorem passes_enclosed {opening : Char} (enclosure : Enclosure)
    (opens : (opening = '[' ∧ enclosure = .array) ∨ (opening = '\x7b' ∧ enclosure = .object))
    (laid : Enclosed enclosure.closing items text)
    (each : List.Forall₂ enclosure.Item values items)
    (passes : ∀ value ∈ values, StartsValue value ∧ Passes value) :
    Passes (opening :: text) := by
  cases laid with
  | @empty blanks' blank' =>
    refine ⟨1, by simp, fun budget outer blanks rest blank stops => ?_⟩
    rw [List.cons_append, List.append_assoc]
    exact (skipFrom_open opens blank).trans (skipFrom_opened_close blank')
  | @items item text items more =>
    obtain ⟨value, values, laid, others, rfl⟩ := List.forall₂_cons_right_iff.mp each
    obtain ⟨starts, steps, few, passed⟩ := passes value List.mem_cons_self
    obtain ⟨_, _, shorter, label⟩ := laid.exists_label starts
    obtain ⟨steps', few', passed'⟩ := skipFrom_continued more others
      fun value member => passes value (List.mem_cons_of_mem _ member)
    refine ⟨steps' + steps + 2, ?_, fun budget outer blanks rest blank stops => ?_⟩
    · simp only [List.length_append, List.length_cons]
      omega
    · obtain ⟨⟨c, start, first, notClosing, blanks', blank', label⟩, _⟩ := label (text ++ rest)
      rw [List.cons_append, List.append_assoc]
      calc skipFrom (budget + (steps' + steps + 2) + 1) .value outer
            (blanks ++ opening :: (item ++ (text ++ rest)))
        _ = skipFrom (budget + (steps' + steps + 2)) .opened (enclosure :: outer)
            (item ++ (text ++ rest)) := skipFrom_open opens blank
        _ = skipFrom (budget + steps' + steps + 1) .value (enclosure :: outer)
            (blanks' ++ (value ++ (text ++ rest))) := by
          rw [show budget + (steps' + steps + 2) = budget + steps' + steps + 1 + 1 by omega]
          exact skipFrom_first first notClosing label
        _ = skipFrom (budget + steps') .ended (enclosure :: outer) (text ++ rest) :=
          passed _ _ _ _ blank' (more.stopsNumber enclosure.closes rest)
        _ = skipFrom budget .ended outer rest := passed' ..

/-- Every JSON value is passed over, whatever encloses it. -/
private theorem JsonText.passes (json : JsonText text) : Passes text := by
  induction json with
  | null => exact passes_of_skipScalar rfl (by decide) (by decide) fun rest _ =>
      skipWord_append ['u', 'l', 'l'] rest
  | true => exact passes_of_skipScalar rfl (by decide) (by decide) fun rest _ =>
      skipWord_append ['r', 'u', 'e'] rest
  | false => exact passes_of_skipScalar rfl (by decide) (by decide) fun rest _ =>
      skipWord_append ['a', 'l', 's', 'e'] rest
  | number valid => exact passes_number valid
  | string quoted =>
    obtain ⟨inner, string, rfl⟩ := quoted
    refine passes_of_skipScalar rfl (by decide) (by decide) fun rest _ => ?_
    rw [List.append_assoc]
    exact skipString_append string rest
  | @array values text laid each ih =>
    obtain ⟨items, laid, each'⟩ := laid
    exact passes_enclosed .array (.inl ⟨rfl, rfl⟩) laid each'
      fun value member => ⟨(each value member).startsValue, ih value member⟩
  | @object members text laid keys each ih =>
    obtain ⟨items, laid, each'⟩ := laid
    have labelled : List.Forall₂ Enclosure.object.Item (members.map Prod.snd) items := by
      rw [List.forall₂_map_left_iff]
      exact ((List.forall₂_and_left members items).mpr ⟨keys, each'⟩).imp
        fun member _ ⟨quoted, laid⟩ => ⟨member.1, quoted, laid⟩
    refine passes_enclosed .object (.inr ⟨rfl, rfl⟩) laid labelled fun value held => ?_
    obtain ⟨member, inside, rfl⟩ := List.mem_map.mp held
    exact ⟨(each member inside).startsValue, ih member inside⟩

/-- Every JSON value is passed over, up to its end. -/
theorem JsonText.skipValue_append (json : JsonText text) {blanks : List Char}
    (blank : Blanks blanks) (stops : StopsNumber rest) :
    skipValue (blanks ++ text ++ rest) = .ok rest := by
  obtain ⟨steps, few, passed⟩ := json.passes
  rw [skipValue]
  obtain ⟨budget, enough⟩ : ∃ budget,
      2 * (blanks ++ text ++ rest).length + 2 = budget + 1 + steps + 1 := by
    refine ⟨2 * (blanks ++ text ++ rest).length - steps, ?_⟩
    simp only [List.length_append]
    omega
  rw [enough, List.append_assoc, passed _ _ _ _ blank stops]
  rfl

end LinearAssignment.Json
