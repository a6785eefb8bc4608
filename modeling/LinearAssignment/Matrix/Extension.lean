import LinearAssignment.Log
import LinearAssignment.Matrix.Square
import LinearAssignment.Options

/-! # Square problems of rectangular matrices

The search works on square matrices. A rectangular matrix is filled up with one sentinel cost above
every real cost and every finite limit: each complete assignment uses equally many filled cells, so
they shift its total by a constant. Where a finite limit is to take part in the optimisation, the
matrix is extended by a row for every column and a column for every row, at half the limit each, so
that leaving a row and a column open together costs the limit.
-/

namespace LinearAssignment

open CostNumber (clampFinite isFinite larger magnitude ofNat)

namespace CostMatrix

private theorem length_flatten_rows {κ : Type} (rows : List (List κ)) (width : Nat)
    (uniform : ∀ row ∈ rows, row.length = width) : rows.flatten.length = rows.length * width := by
  induction rows with
  | nil => simp
  | cons row rest ih =>
    simp only [List.flatten_cons, List.length_append, List.length_cons, Nat.succ_mul,
      uniform row (by simp), ih fun other member => uniform other (by simp [member])]
    omega

variable {κ : Type} [CostNumber κ]

/-- The rows of a matrix in their order. -/
def rowLists (cost : CostMatrix κ) : List (List κ) :=
  (List.finRange cost.rows).map fun row => (cost.row row).toList

theorem length_row (cost : CostMatrix κ) (row : Fin cost.rows) :
    (cost.row row).toList.length = cost.cols := by
  have inside : row.val * cost.cols + cost.cols ≤ cost.rows * cost.cols := by
    rw [← Nat.succ_mul]; exact Nat.mul_le_mul_right _ row.isLt
  simp only [CostMatrix.row, Array.length_toList, Array.size_extract, cost.size_eq]
  omega

/-- Rows that are all made `width` long have `rows * width` cells together. -/
theorem length_widened (cost : CostMatrix κ) (width : Nat) (wide : cost.cols ≤ width)
    (filling : List κ) (size : filling.length = width - cost.cols) :
    (cost.rowLists.map (· ++ filling)).flatten.length = cost.rows * width := by
  rw [length_flatten_rows _ width]
  · simp [rowLists]
  · intro row member
    simp only [rowLists, List.map_map, List.mem_map, List.mem_finRange, true_and] at member
    obtain ⟨index, rfl⟩ := member
    simp only [Function.comp, List.length_append, length_row, size]
    omega

/-- The reference cost that the sentinel has to exceed: the largest cost, or a finite limit above
it. -/
def sentinelReference (cost : CostMatrix κ) (limit : κ) : κ :=
  if isFinite limit then larger cost.maxCost limit else cost.maxCost

/-- The sentinel of filled cells: one more than twice the magnitude of the reference, or the
largest finite cost where that is too large. -/
def sentinelCost (cost : CostMatrix κ) (limit : κ) : κ :=
  clampFinite (magnitude (cost.sentinelReference limit) * ofNat 2 + ofNat 1)

/-- The matrix filled up to a square: every row to the full width, then whole rows. -/
def padded (cost : CostMatrix κ) (sentinel : κ) : SquareMatrix κ cost.dimension where
  cells :=
    ((cost.rowLists.map (· ++ List.replicate (cost.dimension - cost.cols) sentinel)).flatten ++
      List.replicate ((cost.dimension - cost.rows) * cost.dimension) sentinel).toArray
  size_eq := by
    have tall : cost.rows ≤ cost.dimension := Nat.le_max_left ..
    have wide : cost.cols ≤ cost.dimension := Nat.le_max_right ..
    simp only [List.size_toArray, List.length_append,
      cost.length_widened cost.dimension wide _ List.length_replicate, List.length_replicate]
    rw [← Nat.add_mul, Nat.add_sub_cancel' tall]

/-- The row that stands for one column in an extension: half the limit below every cost, and zero
where no cost is. -/
def openRow (cost : CostMatrix κ) (half : κ) : List κ :=
  List.replicate cost.cols half ++ List.replicate cost.rows (ofNat 0)

/-- The matrix extended around a limit: each row by one cell of half the limit for every row, then
one row for every column. -/
def extended (cost : CostMatrix κ) (limit : κ) : SquareMatrix κ (cost.rows + cost.cols) where
  cells :=
    ((cost.rowLists.map (· ++ List.replicate cost.rows (limit / ofNat 2))).flatten ++
      (List.replicate cost.cols (cost.openRow (limit / ofNat 2))).flatten).toArray
  size_eq := by
    have upper := cost.length_widened (cost.rows + cost.cols) (Nat.le_add_left ..)
      (List.replicate cost.rows (limit / ofNat 2)) (by rw [List.length_replicate]; omega)
    have lower : (List.replicate cost.cols (cost.openRow (limit / ofNat 2))).flatten.length =
        cost.cols * (cost.rows + cost.cols) := by
      simp [openRow, Nat.add_comm]
    rw [List.size_toArray, List.length_append, upper, lower, ← Nat.add_mul]

end CostMatrix

/-- A square matrix to be solved in place of a cost matrix, with the report of its making. -/
structure SquareProblem (κ : Type) where
  dimension : Nat
  matrix : SquareMatrix κ dimension
  log : List (LogEntry κ)

namespace SquareProblem

variable {κ : Type} [CostNumber κ]

/-- Whether a new square of some dimension can be stored at all. -/
def room (dimension : Nat) : Except (Refusal κ) Unit :=
  if wordSize ≤ dimension * dimension then .error (.shape dimension dimension)
  else match reserve 0 (dimension * dimension) with
    | .ok _ => .ok ()
    | .error cause => .error (.memory cause)

/-- A square matrix as it is. -/
def asItIs (cost : CostMatrix κ) (square : cost.rows = cost.cols) : SquareProblem κ where
  dimension := cost.rows
  matrix := ⟨cost.data, by rw [cost.size_eq, ← square]⟩
  log := []

/-- The matrix filled up with its sentinel. -/
def byPadding (cost : CostMatrix κ) (limit : κ) : SquareProblem κ where
  dimension := cost.dimension
  matrix := cost.padded (cost.sentinelCost limit)
  log := [.padded cost.rows cost.cols cost.dimension (cost.sentinelCost limit)]

/-- The matrix extended around a limit. -/
def byExtension (cost : CostMatrix κ) (limit : κ) : SquareProblem κ where
  dimension := cost.rows + cost.cols
  matrix := cost.extended limit
  log := [.extended cost.rows cost.cols (cost.rows + cost.cols) limit]

/-- The square problem of a cost matrix under some options. -/
def ofCost (cost : CostMatrix κ) (options : Options κ) :
    Except (Refusal κ) (SquareProblem κ) :=
  if !cost.isSquare && !options.extendCost then
    .error (.rectangular cost.rows cost.cols)
  else if options.limitStrategy = .augmented ∧ options.isLimited = true then do
    room (cost.rows + cost.cols)
    return byExtension cost options.costLimit
  else if square : cost.rows = cost.cols then
    .ok (asItIs cost square)
  else do
    room cost.dimension
    return byPadding cost options.costLimit

end SquareProblem

end LinearAssignment
