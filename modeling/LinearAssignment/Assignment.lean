import LinearAssignment.Certificate
import LinearAssignment.Matrix.Extension

/-! # Assignments

The answer of a solve: the partner of every row and column of the cost matrix, the cost of the
retained pairs, and what the solve had to do. A pair of the square solution is retained if it lies
inside the cost matrix and its cost does not exceed the limit.
-/

namespace LinearAssignment

/-- The outcome of a successful solve. -/
structure Assignment (κ : Type) where
  /-- The column of each row. -/
  rowToCol : List (Option Nat)
  /-- The row of each column. -/
  colToRow : List (Option Nat)
  /-- The sum of the costs of all retained pairs. -/
  totalCost : κ
  metrics : Metrics
  certificate : Option (Certificate κ)

/-! ## Views of an assignment -/

/-- What a signed array holds where there is no partner. -/
def unassigned : Int := -1

/-- A partner in a signed 64-bit word; an index of 2⁶³ or more wraps around. -/
def sentinel : Option Nat → Int
  | none => unassigned
  | some index => (index : Int).bmod wordSize

/-- The indices without a partner, in ascending order. -/
def unmatchedIndices (partners : List (Option Nat)) : List Nat :=
  (partners.zipIdx.filter fun (partner, _) => partner.isNone).map (·.2)

namespace Assignment

variable {κ : Type}

/-- The matched pairs of a row and a column, by ascending row. -/
def pairs (assignment : Assignment κ) : List (Nat × Nat) :=
  assignment.rowToCol.zipIdx.filterMap fun (col, row) => col.map (row, ·)

/-- The rows without a column. -/
def unmatchedRows (assignment : Assignment κ) : List Nat := unmatchedIndices assignment.rowToCol

/-- The columns without a row. -/
def unmatchedCols (assignment : Assignment κ) : List Nat := unmatchedIndices assignment.colToRow

/-- How many rows have a column. -/
def matchedCount (assignment : Assignment κ) : Nat := assignment.rowToCol.countP (·.isSome)

/-- The partners of rows and columns in signed arrays. -/
def toSentinelArrays (assignment : Assignment κ) : List Int × List Int :=
  (assignment.rowToCol.map sentinel, assignment.colToRow.map sentinel)

end Assignment

/-- A pair of output buffers: one entry for each row in `x`, one for each column in `y`. -/
structure Buffers where
  x : List Int
  y : List Int
deriving DecidableEq, Repr

/-- Refuse buffers that do not have the lengths of both sides; `x` is looked at first. -/
def Buffers.check {κ : Type} (buffers : Buffers) (rows cols : Nat) :
    Except (Refusal κ) Unit :=
  if buffers.x.length ≠ rows then .error (.bufferLength "x" rows buffers.x.length)
  else if buffers.y.length ≠ cols then .error (.bufferLength "y" cols buffers.y.length)
  else .ok ()

/-- Copy an assignment into buffers. They keep their contents if either length is wrong. -/
def Assignment.writeInto {κ : Type} (assignment : Assignment κ) (buffers : Buffers) :
    Except (Refusal κ) κ × Buffers :=
  match buffers.check assignment.rowToCol.length assignment.colToRow.length with
  | .error problem => (.error problem, buffers)
  | .ok () =>
    let (x, y) := assignment.toSentinelArrays
    (.ok assignment.totalCost, ⟨x, y⟩)

/-! ## Extraction -/

/-- The pairs of a square solution that are retained in a cost matrix. -/
structure Extraction (κ : Type) (rows cols : Nat) where
  rowToCol : Vector (Option (Fin cols)) rows
  colToRow : Vector (Option (Fin rows)) cols
  totalCost : κ
  /-- Pairs inside the cost matrix that cost more than the limit. -/
  excluded : Nat

namespace Extraction

variable {κ : Type} [CostNumber κ]

/-- The column of a row in a square solution, if it lies inside the cost matrix. -/
def realColumn? {n : Nat} (cost : CostMatrix κ) (colOf : Vector (Option (Fin n)) n)
    (row : Fin cost.rows) : Option (Fin cost.cols) :=
  match colOf[row.val]?.join with
  | none => none
  | some col => if real : col.val < cost.cols then some ⟨col, real⟩ else none

/-- Take up the pair of one row. -/
def retain {n : Nat} (cost : CostMatrix κ) (colOf : Vector (Option (Fin n)) n) (limit : κ)
    (extraction : Extraction κ cost.rows cost.cols) (row : Fin cost.rows) :
    Extraction κ cost.rows cost.cols :=
  match realColumn? cost colOf row with
  | none => extraction
  | some col =>
    if limit < cost.get row col then { extraction with excluded := extraction.excluded + 1 }
    else
      { rowToCol := extraction.rowToCol.set row (some col) row.isLt
        colToRow := extraction.colToRow.set col (some row) col.isLt
        totalCost := extraction.totalCost + cost.get row col
        excluded := extraction.excluded }

/-- The retained pairs of a square solution, taken up by ascending row. -/
def ofSquare {n : Nat} (cost : CostMatrix κ) (colOf : Vector (Option (Fin n)) n) (limit : κ) :
    Extraction κ cost.rows cost.cols :=
  (List.finRange cost.rows).foldl (retain cost colOf limit)
    ⟨Vector.replicate _ none, Vector.replicate _ none, CostNumber.ofNat 0, 0⟩

/-- The assignment with the retained pairs. -/
def toAssignment {rows cols : Nat} (extraction : Extraction κ rows cols) (metrics : Metrics)
    (certificate : Option (Certificate κ)) : Assignment κ where
  rowToCol := extraction.rowToCol.toList.map (·.map Fin.val)
  colToRow := extraction.colToRow.toList.map (·.map Fin.val)
  totalCost := extraction.totalCost
  metrics := metrics
  certificate := certificate

end Extraction

end LinearAssignment
