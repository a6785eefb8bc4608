import LinearAssignment.Duration
import LinearAssignment.Json.Reader

/-! # Shapes of JSON forms

A shape describes how values of a type are written in JSON. It gives the Lean type of the values
that are read under it, and for the library that runs their writer and their reader, so that a
domain type needs no more than a shape and two conversions.

A record is written as an object. It may be read from an object, with its members in any order and
unknown members passed over, or from an array of its fields in their order. A choice is written as
a name, or as an object with the name as its only key where the variant carries a value.
-/

namespace LinearAssignment.Json

mutual

/-- How values of a type are written in JSON. -/
inductive Shape where
  | boolean
  /-- A natural number below a bound, under the name of its word size. -/
  | natural (name : String) (bound : Nat)
  | real
  | text
  /-- A value or `null`. -/
  | optional (item : Shape)
  | list (item : Shape)
  | pair (first second : Shape)
  | choice (variants : Variants)
  /-- A record all of whose fields are needed. -/
  | record (name : String) (fields : Fields)
  /-- A record any of whose fields may be absent. -/
  | partialRecord (name : String) (fields : Fields)
  | duration

/-- The fields of a record in their order. -/
inductive Fields where
  | nil
  | field (name : String) (shape : Shape) (rest : Fields)
  /-- A field that is left out where it has no value. -/
  | omittable (name : String) (shape : Shape) (rest : Fields)

/-- The variants of a choice. -/
inductive Variants where
  | nil
  | plain (name : String) (rest : Variants)
  /-- A variant that carries a value. -/
  | carrying (name : String) (payload : Shape) (rest : Variants)

end

/-- An index or a count: a natural number that fits a 64-bit word. -/
abbrev Shape.count : Shape := .natural "usize" UInt64.size

/-! ## Values -/

mutual

/-- The values of a shape. -/
@[reducible] def Shape.Value : Shape → Type
  | .boolean => Bool
  | .natural _ _ => Nat
  | .real => Float
  | .text => String
  | .optional item => Option item.Value
  | .list item => List item.Value
  | .pair first second => first.Value × second.Value
  | .choice variants => variants.Value
  | .record _ fields => fields.Value
  | .partialRecord _ fields => fields.Partial
  | .duration => Duration

/-- A value for every field. -/
@[reducible] def Fields.Value : Fields → Type
  | .nil => Unit
  | .field _ shape rest => shape.Value × rest.Value
  | .omittable _ shape rest => Option shape.Value × rest.Value

/-- What has been read of the fields so far. -/
@[reducible] def Fields.Partial : Fields → Type
  | .nil => Unit
  | .field _ shape rest => Option shape.Value × rest.Partial
  | .omittable _ shape rest => Option (Option shape.Value) × rest.Partial

/-- One of the variants, with the value that it carries. -/
@[reducible] def Variants.Value : Variants → Type
  | .nil => Empty
  | .plain _ rest => Unit ⊕ rest.Value
  | .carrying _ payload rest => payload.Value ⊕ rest.Value

end

/-- How many fields there are. -/
def Fields.length : Fields → Nat
  | .nil => 0
  | .field _ _ rest => rest.length + 1
  | .omittable _ _ rest => rest.length + 1

/-- The names of the variants in their order. -/
def Variants.names : Variants → List String
  | .nil => []
  | .plain name rest => name :: rest.names
  | .carrying name _ rest => name :: rest.names

/-! ## Writing -/

/-- The form of a duration. -/
def ofDuration (d : Duration) : Json :=
  .object [("secs", .natural d.seconds), ("nanos", .natural d.nanoseconds)]

mutual

/-- The JSON form of a value. -/
def Shape.write : (shape : Shape) → shape.Value → Json
  | .boolean, value => .boolean value
  | .natural _ _, value => .natural value
  | .real, value => .real value
  | .text, value => .string value
  | .optional item, value =>
    match value with
    | none => .null
    | some inner => item.write inner
  | .list item, values => .array (values.map item.write)
  | .pair first second, (a, b) => .array [first.write a, second.write b]
  | .choice variants, value => variants.write value
  | .record _ fields, values => .object (fields.write values)
  | .partialRecord _ fields, values => .object (fields.writePresent values)
  | .duration, value => ofDuration value

/-- The members of a record. -/
def Fields.write : (fields : Fields) → fields.Value → List (String × Json)
  | .nil, _ => []
  | .field name shape rest, (value, values) => (name, shape.write value) :: rest.write values
  | .omittable name shape rest, (value, values) =>
    match value with
    | none => rest.write values
    | some inner => (name, shape.write inner) :: rest.write values

/-- The members of those fields that are present. -/
def Fields.writePresent : (fields : Fields) → fields.Partial → List (String × Json)
  | .nil, _ => []
  | .field name shape rest, (value, values) =>
    match value with
    | none => rest.writePresent values
    | some inner => (name, shape.write inner) :: rest.writePresent values
  | .omittable name shape rest, (value, values) =>
    match value with
    | some (some inner) => (name, shape.write inner) :: rest.writePresent values
    | _ => rest.writePresent values

/-- The form of a variant. -/
def Variants.write : (variants : Variants) → variants.Value → Json
  | .nil, _ => .null
  | .plain name rest, value =>
    match value with
    | .inl _ => .string name
    | .inr other => rest.write other
  | .carrying name payload rest, value =>
    match value with
    | .inl inner => .object [(name, payload.write inner)]
    | .inr other => rest.write other

end

/-! ## Reading -/

/-- Nothing read yet. -/
def Fields.unread : (fields : Fields) → fields.Partial
  | .nil => ()
  | .field _ _ rest => (none, rest.unread)
  | .omittable _ _ rest => (none, rest.unread)

/-- The value of a field that is absent; only an optional value has one. -/
def Shape.absent? : (shape : Shape) → Option shape.Value
  | .optional _ => some none
  | _ => none

/-- All fields of a record, or the first that is missing. -/
def Fields.complete : (fields : Fields) → fields.Partial → Except ReadError fields.Value
  | .nil, _ => .ok ()
  | .field name shape rest, (value, values) =>
    match value <|> shape.absent? with
    | some present => do return (present, ← rest.complete values)
    | none => .error (.mismatch (.missingField name))
  | .omittable _ _ rest, (value, values) => do
    return (value.join, ← rest.complete values)

/-- The length of an array that has too few items for a record. -/
def tooShort (found : Nat) (record : String) (fields : Nat) : ReadError :=
  .mismatch (.length found ("struct " ++ record ++ " with " ++ toString fields ++ " elements"))

/-- A number of seconds. -/
def readSeconds : Reader Nat := readNatural "u64" UInt64.size

/-- A number of nanoseconds. -/
def readNanoseconds : Reader Nat := readNatural "u32" UInt32.size

/-- A duration from its parts. -/
def durationOf (seconds nanoseconds : Nat) : Except ReadError Duration :=
  match Duration.ofParts? seconds nanoseconds with
  | some value => .ok value
  | none => .error (.mismatch .durationOverflow)

/-- The members of a duration, which admits no others. -/
def durationMember (key : String) (parts : Option Nat × Option Nat) :
    Option (Reader (Option Nat × Option Nat)) :=
  let duplicate : Reader (Option Nat × Option Nat) := fun _ =>
    .error (.mismatch (.duplicateField key))
  if key = "secs" then
    some (if parts.1.isSome then duplicate else fun text => do
      let (value, rest) ← readMember readSeconds text
      return ((some value, parts.2), rest))
  else if key = "nanos" then
    some (if parts.2.isSome then duplicate else fun text => do
      let (value, rest) ← readMember readNanoseconds text
      return ((parts.1, some value), rest))
  else
    some fun _ => .error (.mismatch (.unknownField key ["secs", "nanos"]))

/-- A duration, as an object or as an array of its two parts. -/
def readDuration : Reader Duration := fun text =>
  let missingItem (found : Nat) : ReadError := .mismatch (.length found "struct Duration")
  match skipBlank text with
  | '\x7b' :: rest => do
    let (parts, rest) ← readMembers durationMember (none, none) rest
    match parts with
    | (none, _) => .error (.mismatch (.missingField "secs"))
    | (some _, none) => .error (.mismatch (.missingField "nanos"))
    | (some seconds, some nanoseconds) => return (← durationOf seconds nanoseconds, rest)
  | '[' :: rest => do
    let (more, rest) ← nextItem true rest
    if !more then .error (missingItem 0) else
    let (seconds, rest) ← readSeconds rest
    let (more, rest) ← nextItem false rest
    if !more then .error (missingItem 1) else
    let (nanoseconds, rest) ← readNanoseconds rest
    let value ← durationOf seconds nanoseconds
    return (value, ← closeArray rest)
  | start => .error (unexpected "struct Duration" start)

mutual

/-- Read a value of a shape. -/
def Shape.read : (shape : Shape) → Reader shape.Value
  | .boolean => readBoolean
  | .natural name bound => readNatural name bound
  | .real => readReal
  | .text => readText
  | .optional item => readOptional item.read
  | .list item => readList item.read
  | .pair first second => fun text =>
    let expected := "a tuple of size 2"
    match skipBlank text with
    | '[' :: rest => do
      let (more, rest) ← nextItem true rest
      if !more then .error (.mismatch (.length 0 expected)) else
      let (a, rest) ← first.read rest
      let (more, rest) ← nextItem false rest
      if !more then .error (.mismatch (.length 1 expected)) else
      let (b, rest) ← second.read rest
      return ((a, b), ← closeArray rest)
    | start => .error (unexpected expected start)
  | .choice variants => fun text =>
    match skipBlank text with
    | '"' :: rest => do
      let (name, rest) ← readString rest
      return (← variants.named variants.names name, rest)
    | '\x7b' :: rest => do
      let (name, rest) ← readKey rest
      let (value, rest) ← variants.readPayload variants.names name rest
      match skipBlank rest with
      | '\x7d' :: rest => return (value, rest)
      | rest => .error (missingAt rest)
    | rest => .error (missingAt rest)
  | .record name fields => fun text =>
    match skipBlank text with
    | '[' :: rest => do
      let (values, rest) ← fields.readItems (tooShort · name fields.length) 0 rest
      return (values, ← closeArray rest)
    | '\x7b' :: rest => do
      let member (key : String) (values : fields.Partial) := fields.member key values
      let (values, rest) ← readMembers member fields.unread rest
      return (← fields.complete values, rest)
    | start => .error (unexpected ("struct " ++ name) start)
  | .partialRecord name fields => fun text =>
    match skipBlank text with
    | '[' :: rest => do
      let (values, rest) ← fields.readLeading true rest
      return (values, ← closeArray rest)
    | '\x7b' :: rest =>
      readMembers (fun key values => fields.member key values) fields.unread rest
    | start => .error (unexpected ("struct " ++ name) start)
  | .duration => readDuration

/-- Read the items of an array as the fields of a record, in their order. -/
def Fields.readItems (short : Nat → ReadError) (index : Nat) :
    (fields : Fields) → Reader fields.Value
  | .nil => fun text => .ok ((), text)
  | .field _ shape rest => fun text => do
    let (more, text) ← nextItem (index = 0) text
    if !more then .error (short index) else
    let (value, text) ← shape.read text
    let (values, text) ← rest.readItems short (index + 1) text
    return ((value, values), text)
  | .omittable _ shape rest => fun text => do
    let (more, text) ← nextItem (index = 0) text
    if !more then .error (short index) else
    let (value, text) ← readOptional shape.read text
    let (values, text) ← rest.readItems short (index + 1) text
    return ((value, values), text)

/-- Read as many items of an array as there are, as the first fields of a record. -/
def Fields.readLeading (first : Bool) : (fields : Fields) → Reader fields.Partial
  | .nil => fun text => .ok ((), text)
  | .field _ shape rest => fun text => do
    let (more, text) ← nextItem first text
    if !more then return ((none, rest.unread), text) else
    let (value, text) ← shape.read text
    let (values, text) ← rest.readLeading false text
    return ((some value, values), text)
  | .omittable _ shape rest => fun text => do
    let (more, text) ← nextItem first text
    if !more then return ((none, rest.unread), text) else
    let (value, text) ← readOptional shape.read text
    let (values, text) ← rest.readLeading false text
    return ((some value, values), text)

/-- How the value of a key is read into the fields; nothing for an unknown key. A key that comes
again is refused before its value. -/
def Fields.member : (fields : Fields) → (key : String) → fields.Partial →
    Option (Reader fields.Partial)
  | .nil, _, _ => none
  | .field name shape rest, key, (value, values) =>
    if key = name then
      some (if value.isSome then fun _ => .error (.mismatch (.duplicateField name))
        else fun text => do
          let (read, text) ← readMember shape.read text
          return ((some read, values), text))
    else
      (rest.member key values).map fun read text => do
        let (values, text) ← read text
        return ((value, values), text)
  | .omittable name shape rest, key, (value, values) =>
    if key = name then
      some (if value.isSome then fun _ => .error (.mismatch (.duplicateField name))
        else fun text => do
          let (read, text) ← readMember (readOptional shape.read) text
          return ((some read, values), text))
    else
      (rest.member key values).map fun read text => do
        let (values, text) ← read text
        return ((value, values), text)

/-- The variant that a bare name stands for. -/
def Variants.named (known : List String) : (variants : Variants) → String →
    Except ReadError variants.Value
  | .nil, name => .error (.mismatch (.unknownVariant name known))
  | .plain own rest, name =>
    if name = own then .ok (.inl ()) else (rest.named known name).map .inr
  | .carrying own _ rest, name =>
    if name = own then .error (.mismatch (.type .unitVariant "newtype variant"))
    else (rest.named known name).map .inr

/-- Read what the variant of a name carries, behind a colon; a plain variant carries `null`. -/
def Variants.readPayload (known : List String) : (variants : Variants) → String →
    Reader variants.Value
  | .nil, name => fun _ => .error (.mismatch (.unknownVariant name known))
  | .plain own rest, name => fun text =>
    if name = own then do
      let (_, text) ← readMember (readNull "unit") text
      return (.inl (), text)
    else do
      let (value, text) ← rest.readPayload known name text
      return (.inr value, text)
  | .carrying own payload rest, name => fun text =>
    if name = own then do
      let (value, text) ← readMember payload.read text
      return (.inl value, text)
    else do
      let (value, text) ← rest.readPayload known name text
      return (.inr value, text)

end

/-- Read a whole text as one value of a shape. -/
def Shape.decode (shape : Shape) (text : String) : Except ReadError shape.Value := do
  let (value, rest) ← shape.read text.toList
  match skipBlank rest with
  | [] => return value
  | _ => .error .malformed

end LinearAssignment.Json
