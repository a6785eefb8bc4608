import LinearAssignment.Json.Shape

/-! # The fields of a record one by one

A record is read member by member: each sets its own field, and the others stay as they are. So its
values are told apart by their fields, each with its name and the shape of its value, and a record
is the list of those values that are written of it.
-/

namespace LinearAssignment.Json

/-- A value for one of the fields. -/
@[reducible] def Fields.Entry : Fields → Type
  | .nil => Empty
  | .field _ shape rest => shape.Value ⊕ rest.Entry
  | .omittable _ shape rest => shape.Value ⊕ rest.Entry

namespace Fields

/-- The names of the fields in their order. -/
def names : Fields → List String
  | .nil => []
  | .field name _ rest => name :: rest.names
  | .omittable name _ rest => name :: rest.names

/-- The name of the field. -/
def entryName : (fields : Fields) → fields.Entry → String
  | .nil, entry => nomatch entry
  | .field name _ rest, entry => entry.elim (fun _ => name) rest.entryName
  | .omittable name _ rest, entry => entry.elim (fun _ => name) rest.entryName

/-- The shape of the value in its text. A field that may be left out has an optional value. -/
def entryShape : (fields : Fields) → fields.Entry → Shape
  | .nil, entry => nomatch entry
  | .field _ shape _, .inl _ => shape
  | .field _ _ rest, .inr other => rest.entryShape other
  | .omittable _ shape _, .inl _ => .optional shape
  | .omittable _ _ rest, .inr other => rest.entryShape other

/-- The value, under the shape of its text. -/
def entryValue : (fields : Fields) → (entry : fields.Entry) → (fields.entryShape entry).Value
  | .nil, entry => nomatch entry
  | .field _ _ _, .inl value => value
  | .field _ _ rest, .inr other => rest.entryValue other
  | .omittable _ _ _, .inl value => some value
  | .omittable _ _ rest, .inr other => rest.entryValue other

/-- The field has not been read yet. -/
def Free : (fields : Fields) → fields.Partial → fields.Entry → Prop
  | .nil, _, entry => nomatch entry
  | .field _ _ rest, (value, values), entry => entry.elim (fun _ => value = none) (rest.Free values)
  | .omittable _ _ rest, (value, values), entry =>
    entry.elim (fun _ => value = none) (rest.Free values)

/-- What has been read, with the field set to the value. -/
def put : (fields : Fields) → fields.Partial → fields.Entry → fields.Partial
  | .nil, _, entry => nomatch entry
  | .field _ _ rest, (value, values), entry =>
    entry.elim (fun read => (some read, values)) fun other => (value, rest.put values other)
  | .omittable _ _ rest, (value, values), entry =>
    entry.elim (fun read => (some (some read), values)) fun other => (value, rest.put values other)

theorem entryName_mem : (fields : Fields) → (entry : fields.Entry) →
    fields.entryName entry ∈ fields.names
  | .nil, entry => nomatch entry
  | .field _ _ _, .inl _ => List.mem_cons_self
  | .field _ _ rest, .inr other => List.mem_cons_of_mem _ (rest.entryName_mem other)
  | .omittable _ _ _, .inl _ => List.mem_cons_self
  | .omittable _ _ rest, .inr other => List.mem_cons_of_mem _ (rest.entryName_mem other)

theorem free_unread : (fields : Fields) → (entry : fields.Entry) →
    fields.Free fields.unread entry
  | .nil, entry => nomatch entry
  | .field _ _ _, .inl _ => rfl
  | .field _ _ rest, .inr other => rest.free_unread other
  | .omittable _ _ _, .inl _ => rfl
  | .omittable _ _ rest, .inr other => rest.free_unread other

/-- Setting a field leaves those of other names as they are. -/
theorem free_put : (fields : Fields) → (values : fields.Partial) →
    (entry entry' : fields.Entry) → fields.entryName entry ≠ fields.entryName entry' →
    fields.Free values entry' → fields.Free (fields.put values entry) entry'
  | .nil, _, entry, _, _, _ => nomatch entry
  | .field _ _ _, _, .inl _, .inl _, other, _ => absurd rfl other
  | .field _ _ _, _, .inl _, .inr _, _, free => free
  | .field _ _ _, _, .inr _, .inl _, _, free => free
  | .field _ _ rest, (_, values), .inr entry, .inr entry', other, free =>
    rest.free_put values entry entry' other free
  | .omittable _ _ _, _, .inl _, .inl _, other, _ => absurd rfl other
  | .omittable _ _ _, _, .inl _, .inr _, _, free => free
  | .omittable _ _ _, _, .inr _, .inl _, _, free => free
  | .omittable _ _ rest, (_, values), .inr entry, .inr entry', other, free =>
    rest.free_put values entry entry' other free

/-- Setting fields leaves those of other names as they are. -/
theorem free_foldl_put (fields : Fields) {entries : List fields.Entry} {values : fields.Partial}
    {entry : fields.Entry} (apart : fields.entryName entry ∉ entries.map fields.entryName)
    (free : fields.Free values entry) : fields.Free (entries.foldl fields.put values) entry := by
  induction entries generalizing values with
  | nil => exact free
  | cons other entries ih =>
    rw [List.map_cons, List.mem_cons, not_or] at apart
    exact ih apart.2 (fields.free_put values other entry (Ne.symm apart.1) free)

/-! ## The values that are written -/

/-- The fields that have a value, in their order. -/
def present : (fields : Fields) → fields.Partial → List fields.Entry
  | .nil, _ => []
  | .field _ _ rest, (value, values) =>
    value.toList.map Sum.inl ++ (rest.present values).map Sum.inr
  | .omittable _ _ rest, (value, values) =>
    value.join.toList.map Sum.inl ++ (rest.present values).map Sum.inr

/-- The values of a record, as they are once all of them have been read. -/
def toPartial : (fields : Fields) → fields.Value → fields.Partial
  | .nil, _ => ()
  | .field _ _ rest, (value, values) => (some value, rest.toPartial values)
  | .omittable _ _ rest, (value, values) => (value.map some, rest.toPartial values)

/-- A record is complete once all its values have been read. -/
theorem complete_toPartial : (fields : Fields) → (values : fields.Value) →
    fields.complete (fields.toPartial values) = .ok values
  | .nil, _ => rfl
  | .field _ _ rest, (value, values) => by
    rw [toPartial, complete, rest.complete_toPartial values]
    rfl
  | .omittable _ _ rest, (none, values) => by
    rw [toPartial, complete, rest.complete_toPartial values]
    rfl
  | .omittable _ _ rest, (some value, values) => by
    rw [toPartial, complete, rest.complete_toPartial values]
    rfl

/-- No field comes twice. -/
theorem sublist_present : (fields : Fields) → (values : fields.Partial) →
    ((fields.present values).map fields.entryName).Sublist fields.names
  | .nil, _ => List.nil_sublist _
  | .field name _ rest, (value, values) => by
    have others := rest.sublist_present values
    cases value with
    | none => simpa [present, entryName, names, Function.comp_def] using others.cons name
    | some value => simpa [present, entryName, names, Function.comp_def] using others
  | .omittable name _ rest, (value, values) => by
    have others := rest.sublist_present values
    rcases value with _ | _ | value
    · simpa [present, entryName, names, Function.comp_def] using others.cons name
    · simpa [present, entryName, names, Function.comp_def] using others.cons name
    · simpa [present, entryName, names, Function.comp_def] using others

private theorem foldl_put_inr_field {name : String} {shape : Shape} {rest : Fields}
    (entries : List rest.Entry) (value : Option shape.Value) (values : rest.Partial) :
    (entries.map Sum.inr).foldl (Fields.field name shape rest).put (value, values) =
      (value, entries.foldl rest.put values) := by
  induction entries generalizing values with
  | nil => rfl
  | cons entry entries ih => exact ih (rest.put values entry)

private theorem foldl_put_inr_omittable {name : String} {shape : Shape} {rest : Fields}
    (entries : List rest.Entry) (value : Option (Option shape.Value)) (values : rest.Partial) :
    (entries.map Sum.inr).foldl (Fields.omittable name shape rest).put (value, values) =
      (value, entries.foldl rest.put values) := by
  induction entries generalizing values with
  | nil => rfl
  | cons entry entries ih => exact ih (rest.put values entry)

/-- Setting the fields that have a value, one after the other, gives all of them. -/
theorem foldl_put_present : (fields : Fields) → (values : fields.Value) →
    (fields.present (fields.toPartial values)).foldl fields.put fields.unread =
      fields.toPartial values
  | .nil, _ => rfl
  | .field _ _ rest, (value, values) =>
    (foldl_put_inr_field _ (some value) _).trans
      (congrArg (Prod.mk (some value)) (rest.foldl_put_present values))
  | .omittable _ _ rest, (none, values) =>
    (foldl_put_inr_omittable _ none _).trans
      (congrArg (Prod.mk none) (rest.foldl_put_present values))
  | .omittable _ _ rest, (some value, values) =>
    (foldl_put_inr_omittable _ (some (some value)) _).trans
      (congrArg (Prod.mk (some (some value))) (rest.foldl_put_present values))

/-! ## Conditions on the values -/

variable (P Q : (shape : Shape) → shape.Value → Prop)

/-- Every value that is written of a record has a property. -/
def All : (fields : Fields) → fields.Value → Prop
  | .nil, _ => True
  | .field _ shape rest, (value, values) => P shape value ∧ rest.All values
  | .omittable _ shape rest, (value, values) =>
    (∀ inner ∈ value, P (.optional shape) (some inner)) ∧ rest.All values

/-- One of the values that are written of a record has a property, and those before it have
another. -/
def First : (fields : Fields) → fields.Value → Prop
  | .nil, _ => False
  | .field _ shape rest, (value, values) => Q shape value ∨ P shape value ∧ rest.First values
  | .omittable _ shape rest, (value, values) =>
    (∃ inner ∈ value, Q (.optional shape) (some inner)) ∨
      (∀ inner ∈ value, P (.optional shape) (some inner)) ∧ rest.First values

variable {P Q}

private theorem present_omittable {name : String} {shape : Shape} {rest : Fields}
    (value : Option shape.Value) (values : rest.Value) :
    (Fields.omittable name shape rest).present
        ((Fields.omittable name shape rest).toPartial (value, values)) =
      value.toList.map Sum.inl ++ (rest.present (rest.toPartial values)).map Sum.inr := by
  cases value <;> rfl

/-- What all values have is had by each field that is written. -/
theorem All.present : (fields : Fields) → {values : fields.Value} → fields.All P values →
    ∀ entry ∈ fields.present (fields.toPartial values),
      P (fields.entryShape entry) (fields.entryValue entry)
  | .nil, _, _ => nofun
  | .field _ _ rest, (_, _), ⟨first, others⟩ => by
    intro entry member
    rcases List.mem_cons.mp member with rfl | member
    · exact first
    · obtain ⟨other, inside, rfl⟩ := List.mem_map.mp member
      exact All.present rest others other inside
  | .omittable _ _ rest, (value, _), ⟨first, others⟩ => by
    intro entry member
    rw [present_omittable] at member
    rcases List.mem_append.mp member with member | member
    · obtain ⟨inner, inside, rfl⟩ := List.mem_map.mp member
      exact first inner (Option.mem_toList.mp inside)
    · obtain ⟨other, inside, rfl⟩ := List.mem_map.mp member
      exact All.present rest others other inside

/-- The fields that are written, taken apart at the one with the property. -/
theorem First.exists_split : (fields : Fields) → {values : fields.Value} →
    fields.First P Q values →
    ∃ (before : List fields.Entry) (entry : fields.Entry) (after : List fields.Entry),
      fields.present (fields.toPartial values) = before ++ entry :: after ∧
      (∀ other ∈ before, P (fields.entryShape other) (fields.entryValue other)) ∧
      Q (fields.entryShape entry) (fields.entryValue entry)
  | .field _ _ rest, (value, values), .inl found => ⟨[], .inl value, _, rfl, nofun, found⟩
  | .field _ _ rest, (value, values), .inr ⟨first, later⟩ => by
    obtain ⟨before, entry, after, split, each, found⟩ := later.exists_split rest
    refine ⟨.inl value :: before.map .inr, .inr entry, after.map .inr, ?_, ?_, found⟩
    · simp [toPartial, present, split]
    · simpa using ⟨first, each⟩
  | .omittable _ _ rest, (value, values), .inl ⟨inner, attached, found⟩ => by
    obtain rfl : value = some inner := attached
    exact ⟨[], .inl inner, _, rfl, nofun, found⟩
  | .omittable _ _ rest, (value, values), .inr ⟨first, later⟩ => by
    obtain ⟨before, entry, after, split, each, found⟩ := later.exists_split rest
    refine ⟨value.toList.map .inl ++ before.map .inr, .inr entry, after.map .inr, ?_, ?_, found⟩
    · rw [present_omittable, split]
      simp
    · intro other member
      rcases List.mem_append.mp member with member | member
      · obtain ⟨inner, inside, rfl⟩ := List.mem_map.mp member
        exact first inner (Option.mem_toList.mp inside)
      · obtain ⟨other, inside, rfl⟩ := List.mem_map.mp member
        exact each other inside

end Fields

end LinearAssignment.Json
