import LinearAssignment.SquareSolution

/-! # Certificates of optimality

A permutation is optimal if some potentials leave no pair a negative reduced cost and every matched
pair none at all: then its cost equals the sum of the potentials, and no permutation costs less than
that sum. A certificate evaluates both conditions and both sums, with a tolerance relative to the
largest cost.
-/

namespace LinearAssignment

open CostNumber (billionth larger magnitude ofNat total)

/-- The evidence that a permutation of a square is optimal. -/
structure Certificate (κ : Type) where
  /-- The cost of the matched pairs of the square. -/
  primalObjective : κ
  /-- The sum of all potentials. -/
  dualObjective : κ
  dualityGap : κ
  /-- Every matched pair has a reduced cost of zero. -/
  complementarySlackness : Bool
  /-- No pair has a negative reduced cost. -/
  dualFeasible : Bool
  /-- What counts as zero in both conditions. -/
  tolerance : κ
  dimension : Nat

namespace Certificate

variable {κ : Type} [CostNumber κ] {n : Nat}

/-- The cost of a pair less its two potentials. -/
def reducedCost (matrix : SquareMatrix κ n) (potentials : Potentials κ n) (row col : Fin n) : κ :=
  matrix.get row col - potentials.row.get row - potentials.col.get col

/-- The costs of the matched pairs in the order of their rows. -/
def matchedCosts (matrix : SquareMatrix κ n) (colOf : Vector (Option (Fin n)) n) : List κ :=
  (List.finRange n).filterMap fun row => (colOf.get row).map (matrix.get row)

/-- The largest magnitude of a cost, at least one. -/
def scale (matrix : SquareMatrix κ n) : κ :=
  (matrix.cells.toList.map magnitude).foldl larger (ofNat 1)

/-- All pairs of a row and a column. -/
def cellIndices (n : Nat) : List (Fin n × Fin n) :=
  (List.finRange n).flatMap fun row => (List.finRange n).map (row, ·)

/-- The certificate of a permutation under some potentials. -/
def compute (matrix : SquareMatrix κ n) (colOf : Vector (Option (Fin n)) n)
    (potentials : Potentials κ n) : Certificate κ :=
  let tolerance := scale matrix * billionth
  let primal := total (matchedCosts matrix colOf)
  let dual := total potentials.row.toList + total potentials.col.toList
  let reduced (cell : Fin n × Fin n) : κ := reducedCost matrix potentials cell.1 cell.2
  { primalObjective := primal
    dualObjective := dual
    dualityGap := magnitude (primal - dual)
    complementarySlackness := (cellIndices n).all fun cell =>
      !(decide (colOf.get cell.1 = some cell.2) && decide (tolerance < magnitude (reduced cell)))
    dualFeasible := (cellIndices n).all fun cell => !decide (reduced cell < -tolerance)
    tolerance
    dimension := n }

/-- Both conditions hold, and the gap is at most one tolerance for every row. -/
def isOptimal (certificate : Certificate κ) : Bool :=
  let bound := certificate.tolerance * ofNat (max certificate.dimension 1)
  certificate.complementarySlackness && certificate.dualFeasible &&
    decide (certificate.dualityGap ≤ bound)

end Certificate

end LinearAssignment
