import LinearAssignment.Options
import LinearAssignment.RowReduction

/-! # Solving a square

After the chosen start every row that is still free is matched by an augmentation, in ascending
order. What remains is a permutation and potentials that show it to be optimal.
-/

namespace LinearAssignment

variable {κ : Type} [CostNumber κ] {n : Nat}

/-- Begin a solve on cleared scratch. -/
def Progress.begin (scratch : Scratch κ n) (tally : Tally) : Progress κ n :=
  ⟨scratch, tally.setDimension n, #[]⟩

/-- Make the dual starting point. -/
def Progress.startAt (matrix : SquareMatrix κ n) (initialization : DualStart)
    (progress : Progress κ n) : Progress κ n :=
  match initialization with
  | .zero => progress
  | .rowReduction => progress.reduceRows matrix

/-- Solve a square on cleared scratch. The row for which there is no path, if any, is returned with
the state of the solve. -/
def solveSquare (matrix : SquareMatrix κ n) (initialization : DualStart)
    (scratch : Scratch κ n) (tally : Tally) : Option (Fin n) × Progress κ n :=
  ((Progress.begin scratch tally).startAt matrix initialization).augmentAll matrix
    (List.finRange n)

end LinearAssignment
