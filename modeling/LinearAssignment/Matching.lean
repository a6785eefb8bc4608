/-! # Partial matchings

A partial matching of the rows of a square with its columns, kept from both sides. A step of an
augmentation may leave the two sides out of step for a moment, so that they agree is a property of
matchings and not part of the type.
-/

namespace LinearAssignment

/-- Fill a buffer of any length with `n` equal entries, reusing its memory. -/
def refill {α : Type} (buffer : Array α) (n : Nat) (value : α) : Vector α n :=
  ⟨buffer.shrink 0 ++ Array.replicate n value, by simp⟩

/-- A refilled buffer holds nothing of what it held before. -/
@[simp] theorem refill_eq {α : Type} (buffer : Array α) (n : Nat) (value : α) :
    refill buffer n value = Vector.replicate n value := by
  apply Vector.toArray_inj.mp
  simp [refill, Array.shrink_eq_take]

/-- The partners of the rows and columns of a square that are matched. -/
structure Matching (n : Nat) where
  /-- The column of each row. -/
  colOf : Vector (Option (Fin n)) n
  /-- The row of each column. -/
  rowOf : Vector (Option (Fin n)) n

namespace Matching

variable {n : Nat}

/-- Nothing is matched. -/
def empty : Matching n := ⟨Vector.replicate n none, Vector.replicate n none⟩

/-- Make a row and a column partners; what they were matched with before is not touched. -/
def assign (matching : Matching n) (row col : Fin n) : Matching n :=
  ⟨matching.colOf.set row (some col) row.isLt, matching.rowOf.set col (some row) col.isLt⟩

/-- Make the partners of a list of pairs, one after the other. -/
def assignAll (matching : Matching n) (pairs : List (Fin n × Fin n)) : Matching n :=
  pairs.foldl (fun matching pair => matching.assign pair.1 pair.2) matching

/-- Whether a row has no column. -/
def isFreeRow (matching : Matching n) (row : Fin n) : Bool := (matching.colOf.get row).isNone

/-- Whether a column has no row. -/
def isFreeCol (matching : Matching n) (col : Fin n) : Bool := (matching.rowOf.get col).isNone

end Matching

end LinearAssignment
