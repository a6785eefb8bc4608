import LinearAssignment.Proofs.Json.Reader

/-! # The library that runs is lawful

What the library writes is read back by it kind by kind. An object is read along its members, of
which each is looked up among the fields of the record, so that a visit of its members is a path of
the reader.
-/

namespace LinearAssignment.Json

variable {text : List Char}

/-! ## Shapes -/

theorem Shape.passesBlanks_read (shape : Shape) : PassesBlanks shape.read := by
  intro blanks blank text
  cases shape with
  | boolean => rw [read, readBoolean, readBoolean, skipBlank_append blank]
  | natural name bound => exact passesBlanks_readNatural name bound blank text
  | real => rw [read, readReal, readNumberAs, readNumberAs, skipBlank_append blank]
  | text => rw [read, readText, readText, skipBlank_append blank]
  | optional item => rw [read, readOptional, readOptional, skipBlank_append blank]
  | list item => rw [read, readList, readList, skipBlank_append blank]
  | pair first second => simp only [read, skipBlank_append blank]
  | choice variants => simp only [read, skipBlank_append blank]
  | record name fields => simp only [read, skipBlank_append blank]
  | partialRecord name fields => simp only [read, skipBlank_append blank]
  | duration => rw [read, readDuration, readDuration, skipBlank_append blank]

/-! ## Choices -/

private theorem exists_of_map {α β : Type} {found : Except ReadError α} {f : α → β} {value : β}
    (mapped : found.map f = .ok value) : ∃ other, found = .ok other ∧ f other = value := by
  cases found with
  | error problem => cases mapped
  | ok other => exact ⟨other, rfl, Except.ok.inj mapped⟩

/-- The variant that a name stands for is written as that name. -/
theorem Variants.write_of_named (known : List String) {name : String} :
    (variants : Variants) → {value : variants.Value} →
    variants.named known name = .ok value → variants.write value = .string name
  | .nil, value, _ => nomatch value
  | .plain own rest, value, named => by
    rw [Variants.named] at named
    split_ifs at named with same
    · obtain rfl := Except.ok.inj named
      rw [same]
      rfl
    · obtain ⟨other, found, rfl⟩ := exists_of_map named
      exact rest.write_of_named known found
  | .carrying own payload rest, value, named => by
    rw [Variants.named] at named
    split_ifs at named with same
    obtain ⟨other, found, rfl⟩ := exists_of_map named
    exact rest.write_of_named known found

/-- A name is read as the variant that it stands for. -/
theorem yields_choice (variants : Variants) {name : String} (literal : Literal name text) :
    Yields (Shape.choice variants).read text (variants.named variants.names name) := by
  intro rest _
  obtain ⟨inner, start, read⟩ := exists_readString literal rest
  have quote : skipBlank ('"' :: inner) = '"' :: inner := skipBlank_cons rfl _
  cases found : variants.named variants.names name <;>
    simp [Shape.read, start, quote, read, found, Except.map]

/-! ## Records -/

namespace Fields

/-- The members of a record are the forms of its fields. -/
theorem writePresent_eq : (fields : Fields) → (values : fields.Partial) →
    fields.writePresent values = (fields.present values).map fun entry =>
      (fields.entryName entry, (fields.entryShape entry).write (fields.entryValue entry))
  | .nil, _ => rfl
  | .field name shape rest, (none, values) => by
    rw [writePresent, rest.writePresent_eq values, present]
    simp [entryName, entryShape, entryValue, Function.comp_def]
  | .field name shape rest, (some value, values) => by
    rw [writePresent, rest.writePresent_eq values, present]
    simp [entryName, entryShape, entryValue, Function.comp_def]
  | .omittable name shape rest, (none, values) => by
    rw [writePresent, rest.writePresent_eq values, present]
    · simp [entryName, entryShape, entryValue, Function.comp_def]
    · simp
  | .omittable name shape rest, (some none, values) => by
    rw [writePresent, rest.writePresent_eq values, present]
    · simp [entryName, entryShape, entryValue, Function.comp_def]
    · simp
  | .omittable name shape rest, (some (some value), values) => by
    rw [writePresent, rest.writePresent_eq values, present]
    simp [entryName, entryShape, entryValue, Function.comp_def, Shape.write]

theorem write_eq : (fields : Fields) → (values : fields.Value) →
    fields.write values = fields.writePresent (fields.toPartial values)
  | .nil, _ => rfl
  | .field name shape rest, (value, values) =>
    congrArg ((name, shape.write value) :: ·) (rest.write_eq values)
  | .omittable _ _ rest, (none, values) => rest.write_eq values
  | .omittable name shape rest, (some value, values) =>
    congrArg ((name, shape.write value) :: ·) (rest.write_eq values)

/-- A name that is none of a field is not known. -/
theorem member_of_notMem : (fields : Fields) → {name : String} → name ∉ fields.names →
    (values : fields.Partial) → fields.member name values = none
  | .nil, _, _, _ => by rw [member]
  | .field own shape rest, name, unknown, (value, values) => by
    have other : name ≠ own := fun same => unknown (same ▸ List.mem_cons_self)
    have unknown' : name ∉ rest.names := fun known => unknown (List.mem_cons_of_mem _ known)
    rw [member, if_neg other, rest.member_of_notMem unknown' values]
    rfl
  | .omittable own shape rest, name, unknown, (value, values) => by
    have other : name ≠ own := fun same => unknown (same ▸ List.mem_cons_self)
    have unknown' : name ∉ rest.names := fun known => unknown (List.mem_cons_of_mem _ known)
    rw [member, if_neg other, rest.member_of_notMem unknown' values]
    rfl

/-- A field that has not been read yet is read under the shape of its value, and takes that up. -/
theorem exists_member : (fields : Fields) → fields.names.Nodup → (values : fields.Partial) →
    (entry : fields.Entry) → fields.Free values entry →
    ∃ take : (fields.entryShape entry).Value → fields.Partial,
      take (fields.entryValue entry) = fields.put values entry ∧
      fields.member (fields.entryName entry) values = some fun text => do
        let (value, text) ← readMember (fields.entryShape entry).read text
        return (take value, text)
  | .nil, _, _, entry, _ => nomatch entry
  | .field name shape rest, _, (value, values), .inl entry, free => by
    obtain rfl : value = none := free
    exact ⟨fun read => (some read, values), rfl,
      by rw [entryName, Sum.elim_inl, member, if_pos rfl]; rfl⟩
  | .field name shape rest, distinct, (value, values), .inr entry, free => by
    obtain ⟨fresh, distinct⟩ := List.nodup_cons.mp distinct
    obtain ⟨take, taken, known⟩ := rest.exists_member distinct values entry free
    have other : rest.entryName entry ≠ name := fun same => fresh (same ▸ rest.entryName_mem entry)
    refine ⟨fun read => (value, take read), congrArg (Prod.mk value) taken, ?_⟩
    rw [entryName, Sum.elim_inr, member, if_neg other, known]
    refine congrArg some (funext fun text => ?_)
    cases found : readMember (rest.entryShape entry).read text <;> simp [found, entryShape]
  | .omittable name shape rest, _, (value, values), .inl entry, free => by
    obtain rfl : value = none := free
    refine ⟨fun read => (some read, values), rfl, ?_⟩
    rw [entryName, Sum.elim_inl, member, if_pos rfl]
    simp [entryShape, Shape.read]
  | .omittable name shape rest, distinct, (value, values), .inr entry, free => by
    obtain ⟨fresh, distinct⟩ := List.nodup_cons.mp distinct
    obtain ⟨take, taken, known⟩ := rest.exists_member distinct values entry free
    have other : rest.entryName entry ≠ name := fun same => fresh (same ▸ rest.entryName_mem entry)
    refine ⟨fun read => (value, take read), congrArg (Prod.mk value) taken, ?_⟩
    rw [entryName, Sum.elim_inr, member, if_neg other, known]
    refine congrArg some (funext fun text => ?_)
    cases found : readMember (rest.entryShape entry).read text <;> simp [found, entryShape]

variable {fields : Fields} {values : fields.Partial} {entry : fields.Entry}

/-- A field takes up the value that is read for it. -/
private theorem takes_of_yields (distinct : fields.names.Nodup) (free : fields.Free values entry)
    (yields : Yields (fields.entryShape entry).read text (.ok (fields.entryValue entry))) :
    Takes (fun key values => fields.member key values) values (fields.entryName entry) text
      (fields.put values entry) := by
  obtain ⟨take, taken, known⟩ := fields.exists_member distinct values entry free
  rw [Takes, known]
  intro written colon rest stops
  have read := yields.member (fields.entryShape entry).passesBlanks_read colon rest stops
  simp [read, taken, Except.map]

/-- What is refused for a field is refused for the record. -/
private theorem exists_refuses (distinct : fields.names.Nodup) (free : fields.Free values entry)
    {problem : ReadError}
    (yields : Yields (fields.entryShape entry).read text (.error problem)) :
    ∃ read, fields.member (fields.entryName entry) values = some read ∧
      ∀ written, ColonText text written → Refuses read written problem := by
  obtain ⟨take, _, known⟩ := fields.exists_member distinct values entry free
  refine ⟨_, known, fun written colon rest stops => ?_⟩
  have read := yields.member (fields.entryShape entry).passesBlanks_read colon rest stops
  simp [read, Except.map]

/-- A visit of members is a path of the reader. -/
theorem path_of_visits {depth : ℕ} {written : List (String × List Char)}
    {outcome : Except ReadError fields.Partial} (distinct : fields.names.Nodup)
    (visits : library.Visits depth fields values written outcome) :
    Path (fun key values => fields.member key values) values written outcome := by
  induction visits with
  | done values => exact .nil
  | known free read others ih => exact .cons (takes_of_yields distinct free read) ih
  | @unknown values name text written outcome fresh json others ih =>
    refine .cons (show Takes _ values _ _ values from ?_) ih
    rw [Takes, fields.member_of_notMem fresh]
    exact ⟨fun blanks blank rest stops => json.skipValue_append blank stops, rfl⟩
  | refused written free refused =>
    obtain ⟨read, known, refuses⟩ := exists_refuses distinct free refused
    exact .refused known refuses

/-- The members of an object are written as the library writes the values of its fields. -/
theorem exists_textAt (layout : Layout) (level : ℕ) (values : fields.Partial) :
    ∃ inner, textAt layout level (.object (fields.writePresent values)) = '\x7b' :: inner ∧
      MembersText (library.members layout (level + 1) fields (fields.present values)) inner := by
  obtain ⟨inner, start, laid⟩ := textAt_object layout level (fields.writePresent values)
  rw [fields.writePresent_eq, List.map_map] at laid
  exact ⟨inner, start, laid⟩

end Fields

section

variable {depth : ℕ} {fields : Fields} {written : List (String × List Char)} {inner : List Char}
  {outcome : Except ReadError fields.Partial}

theorem yields_record (name : String) (distinct : fields.names.Nodup)
    (laid : MembersText written inner)
    (visits : library.Visits depth fields fields.unread written outcome) :
    Yields (Shape.record name fields).read ('\x7b' :: inner) (outcome.bind fields.complete) := by
  intro rest _
  have read := readMembers_append laid (Fields.path_of_visits distinct visits) rest
  have start : skipBlank ('\x7b' :: (inner ++ rest)) = '\x7b' :: (inner ++ rest) :=
    skipBlank_cons rfl _
  cases outcome with
  | error problem => simp [Shape.read, start, read, Except.map, Except.bind]
  | ok values =>
    cases complete : fields.complete values <;>
      simp [Shape.read, start, read, complete, Except.map, Except.bind]

theorem yields_partialRecord (name : String) (distinct : fields.names.Nodup)
    (laid : MembersText written inner)
    (visits : library.Visits depth fields fields.unread written outcome) :
    Yields (Shape.partialRecord name fields).read ('\x7b' :: inner) outcome := by
  intro rest _
  have read := readMembers_append laid (Fields.path_of_visits distinct visits) rest
  have start : skipBlank ('\x7b' :: (inner ++ rest)) = '\x7b' :: (inner ++ rest) :=
    skipBlank_cons rfl _
  simp [Shape.read, start, read]

end

/-! ## Whole texts -/

/-- A whole text is read as what it holds between blanks. -/
theorem Shape.decode_of_yields {shape : Shape} {before behind : List Char}
    {outcome : Except ReadError shape.Value} (yields : Yields shape.read text outcome)
    (blank : Blanks before) (blank' : Blanks behind) :
    shape.decode (String.ofList (before ++ (text ++ behind))) = outcome := by
  have stops : StopsNumber (behind ++ []) := stopsNumber_append blank' nofun
  rw [List.append_nil] at stops
  have ended : skipBlank behind = [] := by
    have ended := skipBlank_append blank' []
    rwa [List.append_nil] at ended
  rw [Shape.decode, String.toList_ofList, shape.passesBlanks_read blank, yields behind stops]
  cases outcome <;> simp [ended, Except.map]

/-! ## Laws -/

/-- The library that runs rounds correctly. -/
theorem keepsNumbers_library : library.KeepsNumbers where
  returns_finite _ _ finite layout _ := by cases layout <;> exact reads_readReal finite
  print_infinite layout _ _ infinite := by cases layout <;> exact numberText_infinite infinite

/-- The library that runs is lawful. -/
theorem lawful_library : library.Lawful where
  json_print layout level shape value := jsonText_textAt layout level (shape.write value)
  parse_null_real _ := refuses_readReal
  print_natural layout _ _ _ _ := by cases layout <;> rfl
  parse_natural _ _ _ _ word small := reads_readNatural word small
  returns_boolean _ value layout _ := by cases layout <;> exact reads_readBoolean value
  returns_duration _ _ normal layout level := reads_readDuration normal layout level
  print_choice layout level variants name value named := by
    change Literal name (textAt layout level (variants.write value))
    rw [variants.write_of_named variants.names named]
    cases layout <;> exact literal_textLiteral name
  parse_choice _ variants _ _ literal := yields_choice variants literal
  print_none layout _ _ := by cases layout <;> rfl
  print_some layout _ _ _ := by cases layout <;> rfl
  parse_none _ item := reads_readOptional_none item.read
  parse_some json present yields := yields_readOptional_some json present yields
  print_list layout level item values := by
    obtain ⟨inner, start, laid⟩ := textAt_array layout level (values.map item.write)
    rw [List.map_map] at laid
    exact ⟨inner, start, laid⟩
  parse_list laid each :=
    reads_readList laid (each.imp fun _ _ ⟨json, yields⟩ => ⟨json.startsValue, yields⟩)
  print_record layout level _ fields values := by
    obtain ⟨inner, start, laid⟩ := Fields.exists_textAt layout level (fields.toPartial values)
    rw [← fields.write_eq] at start
    exact ⟨inner, start, laid⟩
  parse_record name _ _ _ _ distinct laid visits := yields_record name distinct laid visits
  print_partialRecord layout level _ fields values := Fields.exists_textAt layout level values
  parse_partialRecord name _ _ _ _ distinct laid visits :=
    yields_partialRecord name distinct laid visits
  decode_of_yields yields blank blank' := Shape.decode_of_yields yields blank blank'

end LinearAssignment.Json
