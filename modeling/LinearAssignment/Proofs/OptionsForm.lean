import LinearAssignment.Proofs.Json.Shape
import LinearAssignment.Proofs.ParameterTexts

/-! # Options as JSON

Options are read from any object that holds some of their values: the members may come in any order,
with unknown members between them, and what does not come keeps its default. An unbounded limit is
held as `null`. This is so with every lawful library that keeps numbers.
-/

namespace LinearAssignment

open Json (Fields Yields JsonText Blanks MembersText nullText)

namespace Options

variable {library : JsonLibrary} {options : Options Float}

/-! ## Limits -/

/-- A valid limit that is not finite is infinite. -/
theorem costLimit_eq_infinity (checked : options.check = .ok ())
    (unlimited : options.isLimited = false) : options.costLimit = CostNumber.infinity := by
  have number : options.costLimit.isNaN = false := isNaN_of_check checked
  have infinite : options.costLimit.isFinite = false := unlimited
  rcases Binary64.finite_or_infinity number with finite | ⟨sign, read⟩
  · have finite' : options.costLimit.isFinite = true := finite
    rw [infinite] at finite'
    contradiction
  · cases sign with
    | positive => exact Binary64.eq_of_unpack read
    | negative =>
      have negated : options.costLimit = -Binary64.infinity := Binary64.eq_of_unpack read
      have same : (options.costLimit == -CostNumber.infinity) = true := by
        rw [negated]
        decide +kernel
      rw [check, if_pos same] at checked
      split_ifs at checked

theorem check_standard : ({} : Options Float).check = .ok () := by
  rw [check, if_neg (by decide +kernel), if_neg (by decide +kernel)]

theorem check_adopt {other : Options Float} (checked : options.check = .ok ())
    (checked' : other.check = .ok ()) (parameter : ParameterName) :
    (options.adopt other parameter).check = .ok () := by
  cases parameter with
  | costLimit => exact (check_congr rfl).trans checked'
  | extendCost | initialization | limitStrategy | verify => exact (check_congr rfl).trans checked

/-! ## The form of options -/

/-- The fields of options in their JSON form. -/
private abbrev fields : Fields :=
  .field "extend_cost" .boolean
    (.field "cost_limit" (.optional .real)
    (.field "initialization" (JsonForm.shape DualStart)
    (.field "limit_strategy" (JsonForm.shape LimitStrategy)
    (.field "verify" .boolean .nil))))

private theorem distinct_names : fields.names.Nodup := by decide

/-- What a library writes of one parameter: its value, or `null` for an unbounded limit. -/
def textOf (library : JsonLibrary) (layout : Json.Layout) (level : ℕ) (options : Options Float) :
    ParameterName → List Char
  | .extendCost => library.print layout level .boolean options.extendCost
  | .costLimit =>
    if options.isLimited then library.print layout level .real options.costLimit else nullText
  | .initialization =>
    library.print layout level (JsonForm.shape DualStart) (JsonForm.toValue options.initialization)
  | .limitStrategy =>
    library.print layout level (JsonForm.shape LimitStrategy)
      (JsonForm.toValue options.limitStrategy)
  | .verify => library.print layout level .boolean options.verify

/-- The value of one field. -/
private def entry (options : Options Float) : ParameterName → fields.Entry
  | .extendCost => .inl options.extendCost
  | .costLimit => .inr (.inl (if options.isLimited then some options.costLimit else none))
  | .initialization => .inr (.inr (.inl (JsonForm.toValue options.initialization)))
  | .limitStrategy => .inr (.inr (.inr (.inl (JsonForm.toValue options.limitStrategy))))
  | .verify => .inr (.inr (.inr (.inr (.inl options.verify))))

private theorem entryName_entry (options : Options Float) (parameter : ParameterName) :
    fields.entryName (options.entry parameter) = parameter.text := by
  cases parameter <;> rfl

private theorem print_entry (lawful : library.Lawful) (layout : Json.Layout) (level : ℕ)
    (options : Options Float) (parameter : ParameterName) :
    library.print layout level (fields.entryShape (options.entry parameter))
      (fields.entryValue (options.entry parameter)) =
        options.textOf library layout level parameter := by
  cases parameter with
  | extendCost | initialization | limitStrategy | verify => rfl
  | costLimit =>
    rw [textOf]
    split_ifs with limited
    · exact (congrArg (library.print layout level (.optional .real)) (if_pos limited)).trans
        (lawful.print_some layout level .real options.costLimit)
    · exact (congrArg (library.print layout level (.optional .real)) (if_neg limited)).trans
        (lawful.print_none layout level .real)

private theorem returns_start (lawful : library.Lawful) (depth : ℕ) (start : DualStart) :
    library.Returns depth (JsonForm.shape DualStart) (JsonForm.toValue start)
      (.ok (JsonForm.toValue start)) :=
  lawful.returns_choice depth start.name (by cases start <;> rfl)

private theorem returns_strategy (lawful : library.Lawful) (depth : ℕ) (strategy : LimitStrategy) :
    library.Returns depth (JsonForm.shape LimitStrategy) (JsonForm.toValue strategy)
      (.ok (JsonForm.toValue strategy)) :=
  lawful.returns_choice depth strategy.name (by cases strategy <;> rfl)

/-- The value of each parameter comes back. -/
private theorem entryReturns (lawful : library.Lawful) (keeps : library.KeepsNumbers) (depth : ℕ)
    (options : Options Float) (parameter : ParameterName) :
    library.EntryReturns depth fields (options.entry parameter) := by
  cases parameter with
  | extendCost => exact lawful.returns_boolean depth options.extendCost
  | verify => exact lawful.returns_boolean depth options.verify
  | initialization => exact returns_start lawful depth options.initialization
  | limitStrategy => exact returns_strategy lawful depth options.limitStrategy
  | costLimit =>
    have limit : library.Returns depth (.optional .real)
        (if options.isLimited then some options.costLimit else none)
        (.ok (if options.isLimited then some options.costLimit else none)) := by
      split_ifs with limited
      · exact lawful.returns_some (keeps.returns_finite depth limited) fun layout level =>
          lawful.print_finite_ne keeps layout level limited
      · exact lawful.returns_none depth .real
    exact limit

/-- An unbounded limit is all that is lost on the way, and it comes back. -/
private theorem ofValue_limit (checked : options.check = .ok ()) :
    (if options.isLimited then some options.costLimit else none).getD CostNumber.infinity =
      options.costLimit := by
  cases limited : options.isLimited with
  | true => rfl
  | false => exact (costLimit_eq_infinity checked limited).symm

private theorem ofValue_start (start : DualStart) :
    JsonForm.ofValue (JsonForm.toValue start) = start := by
  cases start <;> rfl

private theorem ofValue_strategy (strategy : LimitStrategy) :
    JsonForm.ofValue (JsonForm.toValue strategy) = strategy := by
  cases strategy <;> rfl

/-- Setting a field adopts its parameter. -/
private theorem ofValue_put (checked : options.check = .ok ()) (values : fields.Partial)
    (parameter : ParameterName) :
    JsonForm.ofValue (α := Options Float) (fields.put values (options.entry parameter)) =
      (JsonForm.ofValue (α := Options Float) values).adopt options parameter := by
  cases parameter with
  | extendCost | verify => rfl
  | costLimit =>
    refine Eq.trans ?_ (congrArg (fun limit =>
      { JsonForm.ofValue (α := Options Float) values with costLimit := limit })
      (ofValue_limit checked))
    rfl
  | initialization =>
    refine Eq.trans ?_ (congrArg (fun initialization =>
      { JsonForm.ofValue (α := Options Float) values with initialization })
      (ofValue_start options.initialization))
    rfl
  | limitStrategy =>
    refine Eq.trans ?_ (congrArg (fun limitStrategy =>
      { JsonForm.ofValue (α := Options Float) values with limitStrategy })
      (ofValue_strategy options.limitStrategy))
    rfl

private theorem ofValue_foldl_put (checked : options.check = .ok ()) (names : List ParameterName)
    (values : fields.Partial) :
    JsonForm.ofValue (α := Options Float) ((names.map options.entry).foldl fields.put values) =
      names.foldl (·.adopt options) (JsonForm.ofValue (α := Options Float) values) := by
  induction names generalizing values with
  | nil => rfl
  | cons parameter names ih =>
    rw [List.map_cons, List.foldl_cons, List.foldl_cons, ih, ofValue_put checked]

private theorem check_foldl_adopt {other : Options Float} (checked : options.check = .ok ())
    (checked' : other.check = .ok ()) (names : List ParameterName) :
    (names.foldl (·.adopt other) options).check = .ok () := by
  induction names generalizing options with
  | nil => exact checked
  | cons parameter names ih => exact ih (check_adopt checked checked' parameter)

/-! ## Reading options -/

private theorem readOptions_of_decode {text : String}
    {value : (JsonForm.shape (Options Float)).Value}
    (decoded : library.decode (JsonForm.shape (Options Float)) text = .ok value)
    (checked : (JsonForm.ofValue value : Options Float).check = .ok ()) :
    library.readOptions text = .ok (JsonForm.ofValue value) := by
  rw [JsonLibrary.readOptions, JsonLibrary.read, decoded]
  change (Except.map _ (check _)) = _
  rw [checked]
  rfl

/-- Options are read along the members of an object: what is offered is adopted, and all else keeps
its default. -/
private theorem readOptions_of_offers (lawful : library.Lawful) (checked : options.check = .ok ())
    {names : List ParameterName} (distinct : names.Nodup) {written : List (String × List Char)}
    (offers : library.Offers 126 fields (names.map options.entry) written)
    {inner before behind : List Char} (laid : MembersText written inner) (blank : Blanks before)
    (blank' : Blanks behind) :
    library.readOptions (String.ofList (before ++ ('\x7b' :: inner ++ behind))) =
      .ok (names.foldl (·.adopt options) {}) := by
  have named : ((names.map options.entry).map fields.entryName).Nodup := by
    rw [List.map_map]
    refine distinct.map fun first second same => ?_
    simp only [Function.comp_apply, entryName_entry] at same
    have known := ParameterName.ofText?_text second
    rw [← same, ParameterName.ofText?_text] at known
    exact Option.some.inj known
  have visits := offers.visits named fields.unread (fun value _ => fields.free_unread value)
    (.done _)
  rw [List.append_nil] at visits
  -- The object is the first of the levels, so all but one of them are left for its members.
  have yields := lawful.parse_partialRecord "SolverConfig" distinct_names laid visits
  have decoded := lawful.decode_of_yields yields blank blank'
  have standard : JsonForm.ofValue (α := Options Float) fields.unread = {} := rfl
  have value := ofValue_foldl_put checked names fields.unread
  rw [standard] at value
  have read := readOptions_of_decode decoded
    (by rw [value]; exact check_foldl_adopt check_standard checked names)
  rwa [value] at read

/-- An object holds the values of some parameters, in their order, as the library writes them, with
unknown members between them. -/
inductive Holds (library : JsonLibrary) (options : Options Float) :
    List ParameterName → List (String × List Char) → Prop
  | nil : options.Holds library [] []
  | known {parameter : ParameterName} {names : List ParameterName}
    {written : List (String × List Char)} (layout : Json.Layout) (level : ℕ)
    (others : options.Holds library names written) :
    options.Holds library (parameter :: names)
      ((parameter.text, options.textOf library layout level parameter) :: written)
  | unknown {names : List ParameterName} {name : String} {text : List Char}
    {written : List (String × List Char)} (fresh : ParameterName.ofText? name = none)
    (json : JsonText text) (others : options.Holds library names written) :
    options.Holds library names ((name, text) :: written)

private theorem notMem_names {name : String} (fresh : ParameterName.ofText? name = none) :
    name ∉ fields.names := by
  intro known
  have listed : fields.names = ParameterName.all.map ParameterName.text := rfl
  rw [listed] at known
  obtain ⟨parameter, _, rfl⟩ := List.mem_map.mp known
  rw [ParameterName.ofText?_text] at fresh
  contradiction

private theorem Holds.offers (lawful : library.Lawful) (keeps : library.KeepsNumbers) (depth : ℕ)
    {names : List ParameterName} {written : List (String × List Char)}
    (holds : options.Holds library names written) :
    library.Offers depth fields (names.map options.entry) written := by
  induction holds with
  | nil => exact .nil
  | @known parameter names written layout level others ih =>
    rw [List.map_cons, ← entryName_entry options parameter, ← print_entry lawful]
    exact .known (entryReturns lawful keeps depth options parameter layout level) ih
  | unknown fresh json others ih => exact .unknown (notMem_names fresh) json ih

/-- With every lawful library that keeps numbers, valid options are read back from their own text.
And they are read, as far as it holds their values, from any object that holds some of them: in any
order, with any unknown members between them and any blanks. All other options keep their
default. -/
theorem readOptions_of_holds (lawful : library.Lawful) (keeps : library.KeepsNumbers)
    (checked : options.check = .ok ()) {names : List ParameterName} (distinct : names.Nodup)
    {written : List (String × List Char)} (holds : options.Holds library names written)
    {inner before behind : List Char} (laid : MembersText written inner) (blank : Blanks before)
    (blank' : Blanks behind) :
    library.readOptions (library.writeOptions options) = .ok options ∧
      library.readOptions (String.ofList (before ++ ('\x7b' :: inner ++ behind))) =
        .ok (names.foldl (·.adopt options) {}) := by
  constructor
  · obtain ⟨inner, start, laid⟩ := lawful.print_partialRecord .indented 0 "SolverConfig" fields
      (JsonForm.toValue options)
    have all : fields.present (JsonForm.toValue options) =
        ParameterName.all.map options.entry := rfl
    rw [all] at laid
    have each : ∀ entry ∈ ParameterName.all.map options.entry,
        library.EntryReturns 126 fields entry := by
      intro entry member
      obtain ⟨parameter, _, rfl⟩ := List.mem_map.mp member
      exact entryReturns lawful keeps 126 options parameter
    have read := readOptions_of_offers lawful checked (by decide)
      (JsonLibrary.offers_members .indented 1 each) laid Json.blanks_nil Json.blanks_nil
    rw [List.nil_append, List.append_nil, adopt_all _ _ (.refl _)] at read
    rw [JsonLibrary.writeOptions, JsonLibrary.write]
    exact start ▸ read
  · exact readOptions_of_offers lawful checked distinct (holds.offers lawful keeps 126) laid blank
      blank'

/-- Two of the options out of order, behind a member that is passed over although its number is
beyond every range. -/
theorem readOptions_of_holds_reordered :
    let options : Options Float := { costLimit := 0.1, initialization := .zero, verify := true }
    Json.library.readOptions (Json.library.writeOptions options) = .ok options ∧
      Json.library.readOptions "\x7b\"seen\":[1e999],\"verify\":true,\"cost_limit\":0.1\x7d" =
        .ok { costLimit := 0.1, verify := true } := by
  intro options
  have checked : options.check = .ok () := by
    rw [check, if_neg (by decide +kernel), if_neg (by decide +kernel)]
  have large : Decimal.Spelling.Valid ⟨false, ['1'], none, some ⟨false, none, ['9', '9', '9']⟩⟩ :=
    ⟨Decimal.wholeDigits_digitText 1, by rintro _ ⟨⟩,
      by rintro _ ⟨⟩; exact Decimal.digits_digitText 999⟩
  have passed : JsonText ['[', '1', 'e', '9', '9', '9', ']'] :=
    .array ⟨_, .items (.close Json.blanks_nil), .cons ⟨[], Json.blanks_nil, rfl⟩ .nil⟩
      fun value member => List.mem_singleton.mp member ▸ .number large
  have limit : options.textOf Json.library .compact 0 .costLimit = ['0', '.', '1'] := by
    decide +kernel
  have holds : options.Holds Json.library [.verify, .costLimit]
      [("seen", ['[', '1', 'e', '9', '9', '9', ']']), ("verify", ['t', 'r', 'u', 'e']),
        ("cost_limit", ['0', '.', '1'])] :=
    .unknown rfl passed (.known .compact 0 (limit ▸ .known .compact 0 .nil))
  have named (name : String) (text : List Char) :
      Json.NamedText (name, text) (Json.textLiteral name ++ ':' :: text) :=
    ⟨_, Json.literal_textLiteral name, [], [], [], Json.blanks_nil, Json.blanks_nil,
      Json.blanks_nil, rfl⟩
  have read := readOptions_of_holds Json.lawful_library Json.keepsNumbers_library checked
    (by decide) holds
    ⟨_, .items (.next Json.blanks_nil (.next Json.blanks_nil (.close Json.blanks_nil))),
      .cons (named _ _) (.cons (named _ _) (.cons (named _ _) .nil))⟩
    Json.blanks_nil Json.blanks_nil
  have adopted : [ParameterName.verify, .costLimit].foldl (·.adopt options) {} =
    ({ costLimit := 0.1, verify := true } : Options Float) := rfl
  rw [adopted] at read
  refine ⟨read.1, Eq.trans (congrArg Json.library.readOptions ?_) read.2⟩
  rw [← String.toList_inj, String.toList_ofList]
  rfl

end Options

end LinearAssignment
