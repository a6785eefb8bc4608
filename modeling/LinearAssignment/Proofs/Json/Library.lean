import LinearAssignment.Json.Forms
import LinearAssignment.Proofs.Json.Fields
import LinearAssignment.Proofs.Json.Grammar

/-! # What is relied on of a JSON library

A lawful library writes JSON and reads it kind by kind: what it writes of a count, a truth value or
a name is read back, and an object is read along its members. Whether it keeps numbers is a
condition of its own, which is met by those that round correctly. That lists and records are read
back as well, or refused at the first of their values that is, follows from these laws.
-/

namespace LinearAssignment

/-- A duration as the library keeps it: less than a second in its nanoseconds, and no more seconds
than a word holds. -/
structure Json.Normal (duration : Duration) : Prop where
  seconds : duration.seconds < UInt64.size
  nanoseconds : duration.nanoseconds < Duration.nanosecondsPerSecond

namespace JsonLibrary

open Json (ReadError Layout Shape Fields Variants Yields Blanks Literal ArrayText MembersText
  JsonText nullText)

/-! ## Laws -/

/-- So many arrays and objects may enclose one another where a value is read. Values that are passed
over know no such limit. -/
def depthLimit : ℕ := 127

/-- What is read of a value that was written, in any layout and wherever it stands. -/
def Returns (library : JsonLibrary) (depth : ℕ) (shape : Shape) (value : shape.Value)
    (outcome : Except ReadError shape.Value) : Prop :=
  ∀ layout level,
    Yields (library.parse depth shape) (library.print layout level shape value) outcome

/-- The members that are written of some fields: their names and the texts of their values. -/
def members (library : JsonLibrary) (layout : Layout) (level : ℕ) (fields : Fields)
    (entries : List fields.Entry) : List (String × List Char) :=
  entries.map fun entry => (fields.entryName entry,
    library.print layout level (fields.entryShape entry) (fields.entryValue entry))

/-- The members of an object are read into the fields of a record one after the other. A value sets
the field of its name, one of an unknown name is passed over, and the first that is refused is the
last that is looked at. -/
inductive Visits (library : JsonLibrary) (depth : ℕ) (fields : Fields) :
    fields.Partial → List (String × List Char) → Except ReadError fields.Partial → Prop
  | done (values : fields.Partial) : library.Visits depth fields values [] (.ok values)
  | known {values : fields.Partial} {entry : fields.Entry} {text : List Char}
    {written : List (String × List Char)} {outcome : Except ReadError fields.Partial}
    (free : fields.Free values entry)
    (read : Yields (library.parse depth (fields.entryShape entry)) text
      (.ok (fields.entryValue entry)))
    (others : library.Visits depth fields (fields.put values entry) written outcome) :
    library.Visits depth fields values ((fields.entryName entry, text) :: written) outcome
  | unknown {values : fields.Partial} {name : String} {text : List Char}
    {written : List (String × List Char)} {outcome : Except ReadError fields.Partial}
    (fresh : name ∉ fields.names) (json : JsonText text)
    (others : library.Visits depth fields values written outcome) :
    library.Visits depth fields values ((name, text) :: written) outcome
  | refused {values : fields.Partial} {entry : fields.Entry} {text : List Char}
    {problem : ReadError} (written : List (String × List Char)) (free : fields.Free values entry)
    (refused : Yields (library.parse depth (fields.entryShape entry)) text (.error problem)) :
    library.Visits depth fields values ((fields.entryName entry, text) :: written) (.error problem)

/-- Finite numbers are read back, and the others have no text of their own. -/
structure KeepsNumbers (library : JsonLibrary) : Prop where
  /-- A finite number is read back as it was. -/
  returns_finite (depth : ℕ) {x : Float} (finite : x.isFinite = true) :
    library.Returns depth .real x (.ok x)
  /-- A number that is not finite is written as `null`. -/
  print_infinite (layout : Layout) (level : ℕ) {x : Float} (infinite : x.isFinite = false) :
    library.print layout level .real x = nullText

/-- What options and results rely on, apart from numbers, when a library writes and reads them. -/
structure Lawful (library : JsonLibrary) : Prop where
  /-- What is written is JSON. -/
  json_print (layout : Layout) (level : ℕ) (shape : Shape) (value : shape.Value) :
    JsonText (library.print layout level shape value)
  /-- `null` is not read as a number. -/
  parse_null_real (depth : ℕ) :
    Yields (library.parse depth .real) nullText (.error (.mismatch (.type .null "f64")))
  /-- A natural number is written in its digits. -/
  print_natural (layout : Layout) (level : ℕ) (name : String) (bound value : ℕ) :
    library.print layout level (.natural name bound) value = Decimal.digitText value
  /-- A natural number below its bound is read from its digits. -/
  parse_natural (depth : ℕ) (name : String) {bound value : ℕ} (word : bound ≤ UInt64.size)
    (small : value < bound) :
    Yields (library.parse depth (.natural name bound)) (Decimal.digitText value) (.ok value)
  /-- A truth value is read back as it was. -/
  returns_boolean (depth : ℕ) (value : Bool) : library.Returns depth .boolean value (.ok value)
  /-- A duration is an object of its own, and is read back as it was. -/
  returns_duration (depth : ℕ) {value : Duration} (normal : Json.Normal value) :
    library.Returns (depth + 1) .duration value (.ok value)
  /-- A plain variant is written as its name. -/
  print_choice (layout : Layout) (level : ℕ) {variants : Variants} {name : String}
    {value : variants.Value} (named : variants.named variants.names name = .ok value) :
    Literal name (library.print layout level (.choice variants) value)
  /-- A name is read as the variant that it stands for. -/
  parse_choice (depth : ℕ) (variants : Variants) {name : String} {text : List Char}
    (literal : Literal name text) :
    Yields (library.parse depth (.choice variants)) text (variants.named variants.names name)
  /-- An absent value is written as `null`. -/
  print_none (layout : Layout) (level : ℕ) (item : Shape) :
    library.print layout level (.optional item) none = nullText
  /-- A value that is there is written as it is by itself. -/
  print_some (layout : Layout) (level : ℕ) (item : Shape) (value : item.Value) :
    library.print layout level (.optional item) (some value) = library.print layout level item value
  /-- `null` is read as an absent value. -/
  parse_none (depth : ℕ) (item : Shape) :
    Yields (library.parse depth (.optional item)) nullText (.ok none)
  /-- Any other value is read as it is by itself. -/
  parse_some {depth : ℕ} {item : Shape} {text : List Char} {outcome : Except ReadError item.Value}
    (json : JsonText text) (present : text ≠ nullText)
    (yields : Yields (library.parse depth item) text outcome) :
    Yields (library.parse depth (.optional item)) text (outcome.map some)
  /-- A list is written as an array of its items. -/
  print_list (layout : Layout) (level : ℕ) (item : Shape) (values : List item.Value) :
    ∃ inner, library.print layout level (.list item) values = '[' :: inner ∧
      ArrayText (values.map (library.print layout (level + 1) item)) inner
  /-- A list is read from an array item by item. -/
  parse_list {depth : ℕ} {item : Shape} {texts : List (List Char)} {values : List item.Value}
    {inner : List Char} (laid : ArrayText texts inner)
    (each : List.Forall₂ (fun text value =>
      JsonText text ∧ Yields (library.parse depth item) text (.ok value)) texts values) :
    Yields (library.parse (depth + 1) (.list item)) ('[' :: inner) (.ok values)
  /-- A record is written as an object of its fields in their order. -/
  print_record (layout : Layout) (level : ℕ) (name : String) (fields : Fields)
    (values : fields.Value) :
    ∃ inner, library.print layout level (.record name fields) values = '\x7b' :: inner ∧
      MembersText (library.members layout (level + 1) fields
        (fields.present (fields.toPartial values))) inner
  /-- A record is read from an object along its members, and is complete where no field is missing
  that is needed. -/
  parse_record {depth : ℕ} (name : String) {fields : Fields} {inner : List Char}
    {written : List (String × List Char)} {outcome : Except ReadError fields.Partial}
    (distinct : fields.names.Nodup) (laid : MembersText written inner)
    (visits : library.Visits depth fields fields.unread written outcome) :
    Yields (library.parse (depth + 1) (.record name fields)) ('\x7b' :: inner)
      (outcome.bind fields.complete)
  /-- A record whose fields may be absent is written as an object of those that are there. -/
  print_partialRecord (layout : Layout) (level : ℕ) (name : String) (fields : Fields)
    (values : fields.Partial) :
    ∃ inner, library.print layout level (.partialRecord name fields) values = '\x7b' :: inner ∧
      MembersText (library.members layout (level + 1) fields (fields.present values)) inner
  /-- A record whose fields may be absent is read from an object along its members. -/
  parse_partialRecord {depth : ℕ} (name : String) {fields : Fields} {inner : List Char}
    {written : List (String × List Char)} {outcome : Except ReadError fields.Partial}
    (distinct : fields.names.Nodup) (laid : MembersText written inner)
    (visits : library.Visits depth fields fields.unread written outcome) :
    Yields (library.parse (depth + 1) (.partialRecord name fields)) ('\x7b' :: inner) outcome
  /-- A text is read as the value that it holds between blanks. -/
  decode_of_yields {shape : Shape} {text before behind : List Char}
    {outcome : Except ReadError shape.Value}
    (yields : Yields (library.parse depthLimit shape) text outcome) (blank : Blanks before)
    (blank' : Blanks behind) :
    library.decode shape (String.ofList (before ++ (text ++ behind))) = outcome

variable {library : JsonLibrary} {depth : ℕ} {fields : Fields} {entries : List fields.Entry}
  {written : List (String × List Char)}

/-! ## Values or `null` -/

/-- A finite number is not written as `null`, from which no number is read. -/
theorem Lawful.print_finite_ne (lawful : library.Lawful) (keeps : library.KeepsNumbers)
    (layout : Layout) (level : ℕ) {x : Float} (finite : x.isFinite = true) :
    library.print layout level .real x ≠ nullText := by
  intro null
  have read := keeps.returns_finite 0 finite layout level
  rw [null] at read
  cases read.unique (lawful.parse_null_real 0)

theorem Lawful.print_natural_ne (lawful : library.Lawful) (layout : Layout) (level : ℕ)
    (name : String) (bound value : ℕ) :
    library.print layout level (.natural name bound) value ≠ nullText := by
  intro null
  rw [lawful.print_natural] at null
  have digit := (Decimal.digits_digitText value).all 'n' (null ▸ List.mem_cons_self)
  contradiction

theorem Lawful.print_record_ne (lawful : library.Lawful) (layout : Layout) (level : ℕ)
    (name : String) (fields : Fields) (values : fields.Value) :
    library.print layout level (.record name fields) values ≠ nullText := by
  obtain ⟨inner, start, _⟩ := lawful.print_record layout level name fields values
  rw [start]
  exact fun null => absurd (List.cons.inj null).1 (by decide)

theorem Lawful.returns_none (lawful : library.Lawful) (depth : ℕ) (item : Shape) :
    library.Returns depth (.optional item) none (.ok none) := fun layout level =>
  (lawful.print_none layout level item).symm ▸ lawful.parse_none depth item

/-- A value that is there comes back as it does by itself. -/
theorem Lawful.returns_some (lawful : library.Lawful) {item : Shape} {value : item.Value}
    {outcome : Except ReadError item.Value} (returns : library.Returns depth item value outcome)
    (present : ∀ layout level, library.print layout level item value ≠ nullText) :
    library.Returns depth (.optional item) (some value) (outcome.map some) := by
  intro layout level
  rw [lawful.print_some]
  exact lawful.parse_some (lawful.json_print ..) (present layout level) (returns layout level)

/-! ## Scalars -/

/-- A number that is not finite does not come back. -/
theorem Lawful.returns_infinite (lawful : library.Lawful) (keeps : library.KeepsNumbers)
    (depth : ℕ) {x : Float} (infinite : x.isFinite = false) :
    library.Returns depth .real x (.error (.mismatch (.type .null "f64"))) := fun layout level =>
  (keeps.print_infinite layout level infinite).symm ▸ lawful.parse_null_real depth

theorem Lawful.returns_count (lawful : library.Lawful) (depth : ℕ) {value : ℕ}
    (small : value < UInt64.size) : library.Returns depth .count value (.ok value) :=
  fun layout level =>
    (lawful.print_natural layout level "usize" _ value).symm ▸
      lawful.parse_natural depth "usize" le_rfl small

theorem Lawful.returns_choice (lawful : library.Lawful) (depth : ℕ) {variants : Variants}
    (name : String) {value : variants.Value}
    (named : variants.named variants.names name = .ok value) :
    library.Returns depth (.choice variants) value (.ok value) := fun layout level =>
  named ▸ lawful.parse_choice depth variants (lawful.print_choice layout level named)

/-! ## Lists -/

/-- A list comes back if its items do. -/
theorem Lawful.returns_list (lawful : library.Lawful) {item : Shape} {values : List item.Value}
    (each : ∀ value ∈ values, library.Returns depth item value (.ok value)) :
    library.Returns (depth + 1) (.list item) values (.ok values) := by
  intro layout level
  obtain ⟨inner, start, laid⟩ := lawful.print_list layout level item values
  rw [start]
  refine lawful.parse_list laid ?_
  rw [List.forall₂_map_left_iff, List.forall₂_same]
  exact fun value member => ⟨lawful.json_print .., each value member layout (level + 1)⟩

/-! ## Records -/

/-- Members that hold values for some fields, in their order, with unknown members between them. -/
inductive Offers (library : JsonLibrary) (depth : ℕ) (fields : Fields) :
    List fields.Entry → List (String × List Char) → Prop
  | nil : library.Offers depth fields [] []
  | known {entry : fields.Entry} {entries : List fields.Entry} {text : List Char}
    {written : List (String × List Char)}
    (read : Yields (library.parse depth (fields.entryShape entry)) text
      (.ok (fields.entryValue entry)))
    (others : library.Offers depth fields entries written) :
    library.Offers depth fields (entry :: entries) ((fields.entryName entry, text) :: written)
  | unknown {entries : List fields.Entry} {name : String} {text : List Char}
    {written : List (String × List Char)} (fresh : name ∉ fields.names) (json : JsonText text)
    (others : library.Offers depth fields entries written) :
    library.Offers depth fields entries ((name, text) :: written)

/-- Members set the fields that they hold values for, and no others; then the visit goes on. -/
theorem Offers.visits (offers : library.Offers depth fields entries written)
    {later : List (String × List Char)} {outcome : Except ReadError fields.Partial}
    (distinct : (entries.map fields.entryName).Nodup) (values : fields.Partial)
    (free : ∀ entry ∈ entries, fields.Free values entry)
    (goesOn : library.Visits depth fields (entries.foldl fields.put values) later outcome) :
    library.Visits depth fields values (written ++ later) outcome := by
  induction offers generalizing values with
  | nil => exact goesOn
  | @known entry entries text written read others ih =>
    rw [List.map_cons, List.nodup_cons] at distinct
    refine .known (free entry List.mem_cons_self) read
      (ih distinct.2 _ (fun other member => ?_) goesOn)
    have apart : fields.entryName entry ≠ fields.entryName other := fun same =>
      distinct.1 (same ▸ List.mem_map_of_mem member)
    exact fields.free_put values entry other apart (free other (List.mem_cons_of_mem _ member))
  | unknown fresh json others ih => exact .unknown fresh json (ih distinct values free goesOn)

/-- A field whose value comes back. -/
def EntryReturns (library : JsonLibrary) (depth : ℕ) (fields : Fields) (entry : fields.Entry) :
    Prop :=
  library.Returns depth (fields.entryShape entry) (fields.entryValue entry)
    (.ok (fields.entryValue entry))

/-- What is written of fields whose values come back is an offer of these values. -/
theorem offers_members (layout : Layout) (level : ℕ)
    (each : ∀ entry ∈ entries, library.EntryReturns depth fields entry) :
    library.Offers depth fields entries (library.members layout level fields entries) := by
  induction entries with
  | nil => exact .nil
  | cons entry entries ih =>
    exact .known (each entry List.mem_cons_self layout level)
      (ih fun other member => each other (List.mem_cons_of_mem _ member))

/-- A record comes back if its values do. -/
theorem Lawful.returns_record (lawful : library.Lawful) {name : String} {values : fields.Value}
    (distinct : fields.names.Nodup)
    (each : fields.All (fun shape value => library.Returns depth shape value (.ok value)) values) :
    library.Returns (depth + 1) (.record name fields) values (.ok values) := by
  intro layout level
  obtain ⟨inner, start, laid⟩ := lawful.print_record layout level name fields values
  have offers := offers_members layout (level + 1) (each.present fields)
  have visits := offers.visits (distinct.sublist (fields.sublist_present _)) fields.unread
    (fun entry _ => fields.free_unread entry) (.done _)
  rw [List.append_nil, fields.foldl_put_present] at visits
  have yields := lawful.parse_record name distinct laid visits
  rw [start]
  rwa [Except.bind, fields.complete_toPartial] at yields

/-- A record is refused for the first of its values that is. -/
theorem Lawful.refuses_record (lawful : library.Lawful) {name : String} {values : fields.Value}
    {problem : ReadError} (distinct : fields.names.Nodup)
    (first : fields.First (fun shape value => library.Returns depth shape value (.ok value))
      (fun shape value => library.Returns depth shape value (.error problem)) values) :
    library.Returns (depth + 1) (.record name fields) values (.error problem) := by
  intro layout level
  obtain ⟨inner, start, laid⟩ := lawful.print_record layout level name fields values
  obtain ⟨before, entry, after, split, each, refused⟩ := first.exists_split fields
  have named := distinct.sublist (fields.sublist_present (fields.toPartial values))
  rw [split] at laid named
  rw [List.map_append, List.map_cons, List.nodup_middle, List.nodup_cons] at named
  have visits := (offers_members layout (level + 1) each).visits
    (named.2.sublist (List.sublist_append_left ..)) fields.unread
    (fun other _ => fields.free_unread other)
    (.refused (library.members layout (level + 1) fields after)
      (fields.free_foldl_put (fun member => named.1 (List.mem_append_left _ member))
        (fields.free_unread entry)) (refused layout (level + 1)))
  have yields := lawful.parse_record name distinct
    (by rwa [members, List.map_append, List.map_cons] at laid) visits
  rw [start]
  exact yields

/-- A value is read from its text as it comes back. -/
theorem Lawful.read_write (lawful : library.Lawful) {α : Type} [JsonForm α] {value : α}
    {outcome : Except ReadError (JsonForm.shape α).Value}
    (returns : library.Returns depthLimit (JsonForm.shape α) (JsonForm.toValue value) outcome)
    (layout : Layout) :
    library.read α (library.write layout value) = outcome.map JsonForm.ofValue := by
  have decoded := lawful.decode_of_yields (returns layout 0) Json.blanks_nil Json.blanks_nil
  rw [List.nil_append, List.append_nil] at decoded
  rw [read, write, decoded]

end JsonLibrary

end LinearAssignment
