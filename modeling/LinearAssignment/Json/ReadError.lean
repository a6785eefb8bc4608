import LinearAssignment.Json.Value
import LinearAssignment.Text.Quoted

/-! # Why a JSON text is refused

A text is read from left to right under the shape that is expected of it, and the first problem is
the reason of the refusal: the text is not JSON, or it ends too early, or it is JSON so far and does
not fit the shape.
-/

namespace LinearAssignment.Json

/-- What stands in a text where something else is expected. -/
inductive Found where
  | null
  | boolean (value : Bool)
  | integer (value : Int)
  | real (value : Float)
  | text (value : String)
  | sequence
  | map
  /-- The bare name of a variant. -/
  | unitVariant

/-- How a text that is JSON so far fails to fit the expected shape. -/
inductive Mismatch where
  | type (found : Found) (expected : String)
  | value (found : Int) (expected : String)
  | length (found : Nat) (expected : String)
  | unknownVariant (name : String) (known : List String)
  | unknownField (name : String) (known : List String)
  | missingField (name : String)
  | duplicateField (name : String)
  /-- Carrying nanoseconds over leaves more seconds than a duration holds. -/
  | durationOverflow

/-- Why a text is refused. -/
inductive ReadError where
  /-- The text is not JSON. -/
  | malformed
  /-- The text ends too early. -/
  | truncated
  /-- The text does not fit the expected shape. -/
  | mismatch (cause : Mismatch)

/-- A name between backquotes. -/
def named (name : String) : String := "\x60" ++ name ++ "\x60"

/-- A choice among names: one, either of two, or one of a list. -/
def alternatives (names : List String) : String :=
  match names with
  | [a] => named a
  | [a, b] => named a ++ " or " ++ named b
  | _ => "one of " ++ ", ".intercalate (names.map named)

/-- What was found, in words. -/
def Found.message : Found → String
  | .null => "null"
  | .boolean value => "boolean " ++ named (if value then "true" else "false")
  | .integer value => "integer " ++ named (toString value)
  | .real value => "floating point " ++ named (numberFormat.text value)
  | .text value => "string " ++ Text.quoted value
  | .sequence => "sequence"
  | .map => "map"
  | .unitVariant => "unit variant"

/-- The mismatch in words. -/
def Mismatch.message : Mismatch → String
  | .type found expected => "invalid type: " ++ found.message ++ ", expected " ++ expected
  | .value found expected =>
    "invalid value: integer " ++ named (toString found) ++ ", expected " ++ expected
  | .length found expected =>
    "invalid length " ++ toString found ++ ", expected " ++ expected
  | .unknownVariant name known =>
    "unknown variant " ++ named name ++ ", expected " ++ alternatives known
  | .unknownField name known =>
    "unknown field " ++ named name ++ ", expected " ++ alternatives known
  | .missingField name => "missing field " ++ named name
  | .duplicateField name => "duplicate field " ++ named name
  | .durationOverflow => "overflow deserializing Duration"

/-- The refusal in words. -/
def ReadError.message : ReadError → String
  | .malformed => "malformed text"
  | .truncated => "unexpected end of text"
  | .mismatch cause => cause.message

end LinearAssignment.Json
