import LinearAssignment.Cost
import LinearAssignment.Refusal

/-! # Cost matrices

A cost matrix holds one finite cost for every pair of a row and a column, row after row. Shape and
entries are checked once, where the matrix is made, so that all later steps read it without checks.
-/

namespace LinearAssignment

open CostNumber (isFinite)

/-- A matrix of finite costs with at least one row and one column. -/
structure CostMatrix (κ : Type) [CostNumber κ] where
  rows : Nat
  cols : Nat
  /-- The costs, row after row. -/
  data : Array κ
  rows_pos : 0 < rows
  cols_pos : 0 < cols
  size_eq : data.size = rows * cols
  size_lt : rows * cols < wordSize
  finite : ∀ cost ∈ data, isFinite cost = true

namespace CostMatrix

variable {κ : Type} [CostNumber κ]

/-- Make a matrix of the given costs. A shape without entries is refused first, then a number of
costs that does not fit the shape, then the first cost that is not finite. -/
def ofData (data : Array κ) (rows cols : Nat) : Except (Refusal κ) (CostMatrix κ) :=
  if shape : 0 < rows ∧ 0 < cols ∧ rows * cols < wordSize then
    if size : data.size = rows * cols then
      match found : data.findFinIdx? fun cost => !isFinite cost with
      | some position =>
        .error (.notFinite (position / cols) (position % cols) data[position])
      | none =>
        .ok
          { rows, cols, data
            rows_pos := shape.1
            cols_pos := shape.2.1
            size_eq := size
            size_lt := shape.2.2
            finite := fun cost member => by
              have fine := Array.findFinIdx?_eq_none_iff.mp found cost member
              simpa using fine }
    else .error (.dataLength (rows * cols) data.size)
  else .error (.shape rows cols)

/-- Whether there are as many rows as columns. -/
def isSquare (cost : CostMatrix κ) : Bool := cost.rows == cost.cols

/-- The side of the smallest square that the matrix fits in. -/
def dimension (cost : CostMatrix κ) : Nat := max cost.rows cost.cols

/-- How many pairs a matching can have at most. -/
def pairBound (cost : CostMatrix κ) : Nat := min cost.rows cost.cols

/-- The position of a pair in the data lies inside it. -/
theorem position_lt {rows cols row col : Nat} (inRows : row < rows) (inCols : col < cols) :
    row * cols + col < rows * cols :=
  calc row * cols + col < row * cols + cols := by omega
    _ = (row + 1) * cols := by rw [Nat.add_mul, Nat.one_mul]
    _ ≤ rows * cols := Nat.mul_le_mul_right cols inRows

/-- The cost of a pair. -/
def get (cost : CostMatrix κ) (row : Fin cost.rows) (col : Fin cost.cols) : κ :=
  have inside : row.val * cost.cols + col.val < cost.data.size := by
    rw [cost.size_eq]; exact position_lt row.isLt col.isLt
  cost.data[row.val * cost.cols + col.val]

/-- The costs of one row, as a stretch of the data. -/
def row (cost : CostMatrix κ) (row : Fin cost.rows) : Array κ :=
  cost.data.extract (row.val * cost.cols) (row.val * cost.cols + cost.cols)

/-- The largest cost. -/
def maxCost (cost : CostMatrix κ) : κ := CostNumber.maximum cost.data.toList

end CostMatrix

/-- Rows of costs joined into one stretch, with its number of rows and columns. -/
structure Flattened (κ : Type) where
  data : Array κ
  rows : Nat
  cols : Nat

/-- Join rows of costs. All must have the length of the first; the length of the first other one is
reported. Room for them all is taken for granted. -/
def Flattened.ofRows {κ : Type} (nested : List (List κ)) : Except (Refusal κ) (Flattened κ) :=
  let cols := (nested.head?.getD []).length
  match nested.find? fun row => row.length ≠ cols with
  | some row => .error (.dataLength cols row.length)
  | none => .ok ⟨nested.flatten.toArray, nested.length, cols⟩

end LinearAssignment
