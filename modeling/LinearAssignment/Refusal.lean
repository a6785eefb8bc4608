import LinearAssignment.Capacity
import LinearAssignment.Json.ReadError

/-! # Why a request is refused

Every cause is a value of its own; the wording is in one place, and numbers in it are written out in
full.
-/

namespace LinearAssignment

/-- The causes for which the library gives no answer. -/
inductive Refusal (κ : Type) where
  /-- A matrix without entries, or with more than a machine word can count. -/
  | shape (rows cols : Nat)
  /-- Not one cost for every pair of a row and a column. -/
  | dataLength (expected actual : Nat)
  /-- An output buffer of another length than the side it is for. -/
  | bufferLength (buffer : String) (expected actual : Nat)
  /-- A rectangular matrix where extension is off. -/
  | rectangular (rows cols : Nat)
  /-- A cost that is not a finite number. -/
  | notFinite (row col : Nat) (value : κ)
  /-- A parameter that is unknown or has no such value. -/
  | parameter (name reason : String)
  /-- No memory for the scratch buffers. -/
  | memory (cause : AllocationFailure)
  /-- The search from a row meets no free column at a finite distance. -/
  | stranded (row : Nat)
  /-- A text of options that cannot be read. -/
  | text (cause : Json.ReadError)

/-- The text of a number in messages. -/
def costText (value : Float) : String := Decimal.messageFormat.text value

/-- The size of a matrix, as in messages. -/
def sizeText (rows cols : Nat) : String := toString rows ++ "x" ++ toString cols

/-- The refusal in words. -/
def Refusal.message : Refusal Float → String
  | .shape rows cols => "Invalid dimensions: " ++ sizeText rows cols
  | .dataLength expected actual =>
    s!"Cost data length mismatch: expected {expected} entries, got {actual}"
  | .bufferLength buffer expected actual =>
    s!"Output buffer \x60{buffer}\x60 has length {actual}, expected {expected}"
  | .rectangular rows cols =>
    "Cost matrix is " ++ sizeText rows cols ++ "; rectangular input requires extend_cost"
  | .notFinite row col value =>
    "Invalid cost " ++ costText value ++ s!" at ({row}, {col})"
  | .parameter name reason => s!"Invalid parameter: {name} - {reason}"
  | .memory cause => "Scratch allocation failed: " ++ cause.message
  | .stranded row => s!"No augmenting path terminates for row {row}"
  | .text cause => "Invalid configuration: " ++ cause.message

end LinearAssignment
