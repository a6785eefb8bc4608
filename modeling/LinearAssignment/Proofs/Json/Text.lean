import LinearAssignment.Json.Library
import LinearAssignment.Proofs.Json.Lexeme

/-! # Written texts

Both layouts of a value are JSON. Behind its opening bracket an array is laid out as the texts of
its items, and an object as those of its members, each a level deeper.
-/

namespace LinearAssignment.Json

variable {text : List Char}

/-! ## Scalars -/

/-- A finite number is written in a spelling of its own. -/
theorem exists_numberText {x : Float} (finite : x.isFinite = true) :
    ∃ spelling : Decimal.Spelling, numberText x = spelling.text ∧ spelling.Valid ∧
      spelling.numeral.toFloat = x := by
  obtain ⟨spelling, valid, written, read, _⟩ := numberFormat.exists_writes finite
  refine ⟨spelling, ?_, valid, read⟩
  rw [numberText, if_pos finite, written, String.toList_ofList]

theorem numberText_infinite {x : Float} (infinite : x.isFinite = false) :
    numberText x = nullText := by
  rw [numberText, if_neg (by rw [infinite]; exact Bool.false_ne_true)]

private theorem jsonText_numberText (x : Float) : JsonText (numberText x) := by
  cases finite : x.isFinite with
  | true =>
    obtain ⟨spelling, written, valid, _⟩ := exists_numberText finite
    exact written ▸ .number valid
  | false => exact numberText_infinite finite ▸ .null

private theorem jsonText_digitText (n : ℕ) : JsonText (Decimal.digitText n) := by
  have valid : Decimal.Spelling.Valid ⟨false, Decimal.digitText n, none, none⟩ :=
    ⟨Decimal.wholeDigits_digitText n, nofun, nofun⟩
  have written : Decimal.Spelling.text ⟨false, Decimal.digitText n, none, none⟩ =
      Decimal.digitText n := List.append_nil _
  exact written ▸ .number valid

/-! ## Arrays -/

section

variable {item next before blanks : List Char} {items : List (List Char)}

private theorem ArrayText.nil (blank : Blanks blanks) : ArrayText [] (blanks ++ [']']) :=
  ⟨[], .empty blank, .nil⟩

private theorem ArrayText.single (blank : Blanks before) (blank' : Blanks blanks) :
    ArrayText [item] (before ++ item ++ (blanks ++ [']'])) :=
  ⟨[before ++ item], .items (.close blank'), .cons ⟨before, blank, rfl⟩ .nil⟩

private theorem ArrayText.cons (blank : Blanks before) (others : ArrayText (next :: items) text) :
    ArrayText (item :: next :: items) (before ++ item ++ ',' :: text) := by
  obtain ⟨written, enclosed, each⟩ := others
  obtain ⟨_, _, _, _, rfl⟩ := List.forall₂_cons_left_iff.mp each
  cases enclosed with | items more =>
  exact ⟨_, .items (.next blanks_nil more), .cons ⟨before, blank, rfl⟩ each⟩

end

private theorem arrayText_compactItems :
    (items : List Json) → ArrayText (items.map compactText) (compactItems items)
  | [] => .nil blanks_nil
  | [_] => .single blanks_nil blanks_nil
  | _ :: next :: items => .cons blanks_nil (arrayText_compactItems (next :: items))

private theorem blanks_lineBreak (level : ℕ) : Blanks (lineBreak level) := by
  rintro c (_ | ⟨_, member⟩)
  · rfl
  · rw [List.eq_of_mem_replicate member]
    rfl

private theorem arrayText_indentedItems (level : ℕ) : (items : List Json) →
    ArrayText (items.map (indentedText (level + 1))) (indentedItems level items)
  | [] => .nil (blanks_lineBreak level)
  | [item] => by
    have single : ArrayText [indentedText (level + 1) item] _ :=
      .single (blanks_lineBreak (level + 1)) (blanks_lineBreak level)
    simpa [indentedItems] using single
  | item :: next :: items => by
    have cons : ArrayText (indentedText (level + 1) item :: _) _ :=
      .cons (blanks_lineBreak (level + 1)) (arrayText_indentedItems level (next :: items))
    simpa [indentedItems] using cons

/-- An array is laid out item by item. -/
theorem textAt_array (layout : Layout) (level : ℕ) (items : List Json) :
    ∃ inner, textAt layout level (.array items) = '[' :: inner ∧
      ArrayText (items.map (textAt layout (level + 1))) inner := by
  cases layout with
  | compact => exact ⟨_, by rw [textAt, compactText], arrayText_compactItems items⟩
  | indented =>
    cases items with
    | nil => exact ⟨_, rfl, .nil blanks_nil⟩
    | cons item items => exact ⟨_, rfl, arrayText_indentedItems level (item :: items)⟩

/-! ## Objects -/

section

variable {name : String} {item before between blanks : List Char} {next : String × List Char}
  {members : List (String × List Char)}

private theorem namedText (blank : Blanks before) (blank' : Blanks between) :
    NamedText (name, item) (before ++ (textLiteral name ++ ':' :: (between ++ item))) :=
  ⟨_, literal_textLiteral name, before, [], between, blank, blanks_nil, blank', rfl⟩

private theorem MembersText.nil (blank : Blanks blanks) : MembersText [] (blanks ++ ['\x7d']) :=
  ⟨[], .empty blank, .nil⟩

private theorem MembersText.single (blank : Blanks before) (blank' : Blanks between)
    (blank'' : Blanks blanks) : MembersText [(name, item)]
      (before ++ (textLiteral name ++ ':' :: (between ++ item)) ++ (blanks ++ ['\x7d'])) :=
  ⟨_, .items (.close blank''), .cons (namedText blank blank') .nil⟩

private theorem MembersText.cons (blank : Blanks before) (blank' : Blanks between)
    (others : MembersText (next :: members) text) : MembersText ((name, item) :: next :: members)
      (before ++ (textLiteral name ++ ':' :: (between ++ item)) ++ ',' :: text) := by
  obtain ⟨written, enclosed, each⟩ := others
  obtain ⟨_, _, _, _, rfl⟩ := List.forall₂_cons_left_iff.mp each
  cases enclosed with | items more =>
  exact ⟨_, .items (.next blanks_nil more), .cons (namedText blank blank') each⟩

end

private theorem membersText_compactMembers : (members : List (String × Json)) →
    MembersText (members.map fun member => (member.1, compactText member.2))
      (compactMembers members)
  | [] => .nil blanks_nil
  | [(name, value)] => by
    have single : MembersText [(name, compactText value)] _ :=
      .single blanks_nil blanks_nil blanks_nil
    simpa [compactMembers] using single
  | (name, value) :: next :: members => by
    have cons : MembersText ((name, compactText value) :: _) _ :=
      .cons blanks_nil blanks_nil (membersText_compactMembers (next :: members))
    simpa [compactMembers] using cons

private theorem blanks_space : Blanks [' '] := by simp [Blanks, isBlank]

private theorem membersText_indentedMembers (level : ℕ) : (members : List (String × Json)) →
    MembersText (members.map fun member => (member.1, indentedText (level + 1) member.2))
      (indentedMembers level members)
  | [] => .nil (blanks_lineBreak level)
  | [(name, value)] => by
    have single : MembersText [(name, indentedText (level + 1) value)] _ :=
      .single (blanks_lineBreak (level + 1)) blanks_space (blanks_lineBreak level)
    simpa [indentedMembers] using single
  | (name, value) :: next :: members => by
    have cons : MembersText ((name, indentedText (level + 1) value) :: _) _ :=
      .cons (blanks_lineBreak (level + 1)) blanks_space
        (membersText_indentedMembers level (next :: members))
    simpa [indentedMembers] using cons

/-- An object is laid out member by member. -/
theorem textAt_object (layout : Layout) (level : ℕ) (members : List (String × Json)) :
    ∃ inner, textAt layout level (.object members) = '\x7b' :: inner ∧
      MembersText (members.map fun member => (member.1, textAt layout (level + 1) member.2))
        inner := by
  cases layout with
  | compact => exact ⟨_, by rw [textAt, compactText], membersText_compactMembers members⟩
  | indented =>
    cases members with
    | nil => exact ⟨_, rfl, .nil blanks_nil⟩
    | cons member members => exact ⟨_, rfl, membersText_indentedMembers level (member :: members)⟩

/-! ## Values -/

/-- What is written of a value is JSON. -/
theorem jsonText_textAt (layout : Layout) (level : ℕ) : (value : Json) →
    JsonText (textAt layout level value)
  | .null => by cases layout <;> exact .null
  | .boolean true => by cases layout <;> exact .true
  | .boolean false => by cases layout <;> exact .false
  | .natural value => by cases layout <;> exact jsonText_digitText value
  | .real value => by cases layout <;> exact jsonText_numberText value
  | .string value => by cases layout <;> exact .string (literal_textLiteral value).quotedText
  | .array items => by
    obtain ⟨inner, start, laid⟩ := textAt_array layout level items
    rw [start]
    refine .array laid fun text member => ?_
    obtain ⟨item, inside, rfl⟩ := List.mem_map.mp member
    exact jsonText_textAt layout (level + 1) item
  | .object members => by
    obtain ⟨inner, start, laid⟩ := textAt_object layout level members
    rw [start]
    refine .of_members laid fun written member => ?_
    obtain ⟨⟨name, value⟩, inside, rfl⟩ := List.mem_map.mp member
    have smaller : sizeOf value < sizeOf members := by
      have smaller := List.sizeOf_lt_of_mem inside
      rw [Prod.mk.sizeOf_spec] at smaller
      omega
    exact jsonText_textAt layout (level + 1) value
termination_by value => value

end LinearAssignment.Json
