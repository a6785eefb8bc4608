import LinearAssignment.Augmentation

/-! # Row reduction

A greedy start: the potential of every row is its smallest cost, and the rows, one after the other,
claim the lowest column that is free and costs no more than that.
-/

namespace LinearAssignment

variable {κ : Type} [CostNumber κ] {n : Nat}

namespace Matching

/-- The lowest free column at which a row attains its smallest cost. -/
def tightColumn? (matching : Matching n) (matrix : SquareMatrix κ n) (row : Fin n) :
    Option (Fin n) :=
  let smallest := matrix.rowMinimum row
  (List.finRange n).find? fun col => matrix.get row col == smallest && matching.isFreeCol col

end Matching

namespace Progress

/-- Set the potential of a row to its smallest cost and let it claim a column. -/
def reduceRow (matrix : SquareMatrix κ n) (progress : Progress κ n) (row : Fin n) :
    Progress κ n :=
  let ⟨potentials, search, matching⟩ := progress.scratch
  let lowered : Potentials κ n :=
    { potentials with row := potentials.row.set row (matrix.rowMinimum row) row.isLt }
  match matching.tightColumn? matrix row with
  | none => { progress with scratch := ⟨lowered, search, matching⟩ }
  | some col =>
    { progress with
      scratch := ⟨lowered, search, matching.assign row col⟩
      tally := progress.tally.countGreedy }

/-- Reduce all rows. -/
def reduceRows (matrix : SquareMatrix κ n) (progress : Progress κ n) : Progress κ n :=
  (List.finRange n).foldl (reduceRow matrix) progress

end Progress

end LinearAssignment
