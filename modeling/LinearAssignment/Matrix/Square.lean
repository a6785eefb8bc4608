import LinearAssignment.Matrix

/-! # Square matrices -/

namespace LinearAssignment

/-- A square of costs, row after row. -/
structure SquareMatrix (κ : Type) (n : Nat) where
  cells : Array κ
  size_eq : cells.size = n * n

namespace SquareMatrix

variable {κ : Type} {n : Nat}

/-- The cost of a cell. -/
def get (matrix : SquareMatrix κ n) (row col : Fin n) : κ :=
  have inside : row.val * n + col.val < matrix.cells.size := by
    rw [matrix.size_eq]; exact CostMatrix.position_lt row.isLt col.isLt
  matrix.cells[row.val * n + col.val]

/-- The costs of one row in the order of the columns. -/
def row (matrix : SquareMatrix κ n) (row : Fin n) : List κ :=
  (List.finRange n).map (matrix.get row)

/-- The smallest cost of a row. -/
def rowMinimum [CostNumber κ] (matrix : SquareMatrix κ n) (row : Fin n) : κ :=
  CostNumber.minimum (matrix.row row)

end SquareMatrix

end LinearAssignment
