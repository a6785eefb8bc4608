import LinearAssignment.Proofs.Accounts
import LinearAssignment.Proofs.Buffers
import LinearAssignment.Proofs.Feasibility
import LinearAssignment.Proofs.Sentinel
import LinearAssignment.Proofs.Verification

/-! # Sums that overflow

The costs of a matrix are finite, and so are the cells of its square, but sums of them need not be:
the total of an answer and the two objectives of its certificate add up many costs. The gap between
the objectives shows whether either has overflowed. As long as the costs leave room for as many
summands as the square has cells, nothing overflows.
-/

namespace LinearAssignment

open CostNumber (billionth isFinite larger magnitude ofNat total)
open RoundedCost (value range error)

/-! ## Tolerances -/

section

variable {κ : Type} [CostNumber κ] [RoundedCost κ] {n : Nat} {matrix : SquareMatrix κ n}

theorem Certificate.isFinite_scale (finite : ∀ row col, isFinite (matrix.get row col) = true) :
    isFinite (scale matrix) = true := by
  have cells : ∀ a ∈ matrix.cells.toList.map magnitude, isFinite a = true := by
    intro a member
    obtain ⟨cell, inside, rfl⟩ := List.mem_map.mp member
    obtain ⟨row, col, rfl⟩ := SquareMatrix.mem_cells_iff.mp inside
    exact (RoundedCost.magnitude (finite row col)).1
  rw [scale]
  generalize matrix.cells.toList.map magnitude = magnitudes at cells ⊢
  induction magnitudes using List.reverseRecOn with
  | nil => exact RoundedCost.isFinite_one
  | append_singleton rest last ih =>
    rw [List.foldl_append]
    exact (CostNumber.larger_spec (ih fun a member => cells a (List.mem_append_left _ member))
      (cells last (by simp))).1

/-! ## Objectives -/

variable {potentials : Potentials κ n} {permutation : Equiv.Perm (Fin n)}
  {size slack height : ℚ}

private theorem within_total_finRange {costs : Fin n → κ} (within : ∀ i, Within (costs i) size)
    (nonneg : 0 ≤ size) (room : n * (size + error κ) < range κ) :
    Within (total ((List.finRange n).map costs)) (n * (size + error κ)) := by
  have count : ((List.finRange n).map costs).length = n := by
    rw [List.length_map, List.length_finRange]
  have sum := Within.total (List.forall_mem_map.mpr fun i (_ : i ∈ List.finRange n) => within i)
    nonneg (by rwa [count])
  rwa [count] at sum

private theorem within_total_toList {costs : Vector κ n} (within : ∀ i, Within (costs.get i) size)
    (nonneg : 0 ≤ size) (room : n * (size + error κ) < range κ) :
    Within (total costs.toList) (n * (size + error κ)) := by
  have entries : costs.toList = (List.finRange n).map costs.get := by
    rw [← List.ofFn_eq_map, ← Vector.toList_ofFn]
    exact congrArg Vector.toList (Vector.ofFn_getElem.symm : costs = Vector.ofFn fun i => costs[i])
  rw [entries]
  exact within_total_finRange within nonneg room

/-- The gap of a certificate is finite if there is room for as many costs and potentials as the
square has rows. -/
theorem Certificate.isFinite_dualityGap (costs : matrix.Moderate size)
    (prices : potentials.Moderate matrix (.ofPerm permutation) size slack height)
    (nonneg : 0 ≤ size) (wide : 0 ≤ slack) (tall : 0 ≤ height)
    (room : n * (2 * size + 2 * height + slack + 3 * error κ) + error κ < range κ) :
    isFinite (compute matrix (Matching.ofPerm permutation).colOf potentials).dualityGap = true := by
  have small : 0 ≤ error κ := RoundedCost.error_nonneg
  -- A row is matched to some column, so its potential is within one cost of that of the column.
  have rowPrice (row : Fin n) : Within (potentials.row.get row) (size + height + slack) := by
    obtain ⟨costLow, costHigh⟩ := abs_le.mp (costs.abs_le row (permutation row))
    obtain ⟨colLow, colHigh⟩ := abs_le.mp (prices.abs_col (permutation row))
    obtain ⟨low, high⟩ := abs_le.mp
      (prices.tight row _ (Matching.colOf_ofPerm permutation row))
    exact ⟨prices.finite_row row, abs_le.mpr ⟨by linarith, by linarith⟩⟩
  have colPrice (col : Fin n) : Within (potentials.col.get col) height :=
    ⟨prices.finite_col col, prices.abs_col col⟩
  have pairs : 0 ≤ (n : ℚ) * (size + error κ) := by positivity
  have rows : 0 ≤ (n : ℚ) * (size + height + slack + error κ) := by positivity
  have cols : 0 ≤ (n : ℚ) * (height + error κ) := by positivity
  have primal : Within (matrix.costOf permutation) (n * (size + error κ)) :=
    within_total_finRange (fun row => ⟨costs.finite _ _, costs.abs_le _ _⟩) nonneg (by linarith)
  have rowSum := within_total_toList rowPrice (by positivity) (by linarith)
  have colSum := within_total_toList colPrice tall (by linarith)
  have gap := primal.sub (rowSum.add colSum (by linarith)) (by linarith)
  rw [dualityGap_compute, primalObjective_compute, dualObjective_compute]
  exact gap.magnitude.finite

end

/-- The cells of a square are finite, whatever the matrix and the limit. -/
theorem SquareProblem.isFinite_get {cost : CostMatrix Float} {options : Options Float}
    {problem : SquareProblem Float} (made : ofCost cost options = .ok problem) :
    ∀ row col, isFinite (problem.matrix.get row col) = true := by
  have filled {filling : Float} (finite : isFinite filling = true) (row col : Nat) :
      isFinite ((cost.get? row col).getD filling) = true := by
    rw [CostMatrix.get?]
    split_ifs with inside
    · exact cost.isFinite_get _ _
    · exact finite
  obtain ⟨_, ⟨⟨_, limited⟩, _, rfl⟩ | ⟨_, ⟨square, rfl⟩ | ⟨_, _, rfl⟩⟩⟩ := ofCost_cases made
  · intro row col
    have cell : (byExtension cost options.costLimit).matrix.get row col = _ :=
      cost.get_extended options.costLimit row col
    rw [cell]
    refine filled ?_ row.val col.val
    split_ifs
    · exact (RoundedCost.half limited).1
    · exact RoundedCost.isFinite_zero
  · intro row col
    exact cost.finite _ (Array.getElem_mem _)
  · intro row col
    have cell : (byPadding cost options.costLimit).matrix.get row col = _ :=
      cost.get_padded (cost.sentinelCost options.costLimit) row col
    rw [cell]
    exact filled (Binary64.isFinite_clampFinite _) row.val col.val

/-! ## Answers in range -/

/-- No sum in an answer has overflowed. The objectives of a certificate are finite if the gap
between them is. -/
def Assignment.inRange (answer : Assignment Float) : Bool :=
  answer.totalCost.isFinite && answer.certificate.all fun certificate =>
    certificate.dualityGap.isFinite

section

variable {cost : CostMatrix Float} {options : Options Float} {answer : Assignment Float}

/-- The total of an answer adds up one cost for each row at most. -/
theorem isFinite_totalCost_of_solve (success : solve cost options = .ok answer) {size : ℚ}
    (moderate : cost.Moderate options size)
    (room : cost.rows * (size + error Float) < range Float) :
    answer.totalCost.isFinite = true := by
  have sound := Assignment.Sound.of_solve success
  have small : 0 ≤ error Float := RoundedCost.error_nonneg
  have nonneg := moderate.nonneg
  have few : (answer.pairs.filterMap fun pair => cost.get? pair.1 pair.2).length ≤ cost.rows := by
    rw [← sound.rows_length, Assignment.pairs]
    exact (List.length_filterMap_le ..).trans
      ((List.length_filterMap_le ..).trans_eq List.length_zipIdx)
  have within : ∀ a ∈ answer.pairs.filterMap fun pair => cost.get? pair.1 pair.2,
      Within a size := by
    intro a member
    obtain ⟨pair, _, found⟩ := List.mem_filterMap.mp member
    rw [CostMatrix.get?] at found
    split_ifs at found with inside
    exact Option.some.inj found ▸ moderate.within (Array.getElem_mem _)
  have sum := Within.total within nonneg (lt_of_le_of_lt
    (mul_le_mul_of_nonneg_right (by exact_mod_cast few) (by linarith)) room)
  rw [sound.totalCost_eq]
  exact sum.finite

/-- Costs of a square with so many rows leave room for all of its potentials if they are below the
range by 64 times the number of its cells. -/
private theorem potentials_lt_range {n : Nat} {size : ℚ} (positive : 0 < n) (few : n ≤ 2 ^ 16)
    (nonneg : 0 ≤ size) (room : 64 * ((n : ℚ) * n) * size ≤ range Float) :
    n * (2 * cellSize Float size + 2 * climb Float n (cellSize Float size) +
      (2 * n + 5) * error Float + 3 * error Float) + error Float < range Float := by
  have one := Binary64.one_le_error
  have precise := Binary64.precise
  have side : (n : ℚ) ≤ 2 ^ 16 := by exact_mod_cast few
  have least : (1 : ℚ) ≤ n := by exact_mod_cast positive
  have square : (n : ℚ) * n ≤ 2 ^ 32 :=
    (mul_le_mul side side (Nat.cast_nonneg n) (by positivity)).trans_eq (by norm_num)
  have cube : (n : ℚ) * n * n ≤ 2 ^ 48 :=
    (mul_le_mul square side (Nat.cast_nonneg n) (by positivity)).trans_eq (by norm_num)
  have first : n * error Float ≤ 2 ^ 16 * error Float :=
    mul_le_mul_of_nonneg_right side (by linarith)
  have second : n * n * error Float ≤ 2 ^ 32 * error Float :=
    mul_le_mul_of_nonneg_right square (by linarith)
  have third : n * n * n * error Float ≤ 2 ^ 48 * error Float :=
    mul_le_mul_of_nonneg_right cube (by linarith)
  have rows : n * size ≤ n * n * size :=
    mul_le_mul_of_nonneg_right (le_mul_of_one_le_left (by positivity) least) nonneg
  have expanded : n * (2 * cellSize Float size + 2 * climb Float n (cellSize Float size) +
      (2 * n + 5) * error Float + 3 * error Float) + error Float =
      16 * (n * n * size) + 4 * (n * size) + 8 * (n * n) + 2 * n + 50 * (n * n * error Float) +
        8 * (n * n * n * error Float) + 16 * (n * error Float) + error Float := by
    rw [climb, Search.reach, cellSize]
    ring
  rw [expanded]
  linarith

/-- The objectives of a square that is made of moderate costs do not overflow. -/
private theorem isFinite_dualityGap_of_ofCost {problem : SquareProblem Float} {size : ℚ}
    (made : SquareProblem.ofCost cost options = .ok problem)
    (moderate : cost.Moderate options size) (positive : 0 < problem.dimension)
    (few : problem.dimension ≤ 2 ^ 16)
    (room : 64 * ((problem.dimension : ℚ) * problem.dimension) * size ≤ range Float) :
    let final := (problem.solution options.initialization).2
    (Certificate.compute problem.matrix final.scratch.matching.colOf
      final.scratch.potentials).dualityGap.isFinite = true := by
  have nonneg := moderate.nonneg
  have small : 0 ≤ error Float := RoundedCost.error_nonneg
  have least : (1 : ℚ) ≤ problem.dimension := by exact_mod_cast positive
  have rows : problem.dimension * size ≤ problem.dimension * problem.dimension * size :=
    mul_le_mul_of_nonneg_right (le_mul_of_one_le_left (by positivity) least) nonneg
  have area : 0 ≤ (problem.dimension : ℚ) * problem.dimension * size := by positivity
  have climbs := climb_lt_range Binary64.precise Binary64.one_le_error
    (few.trans (by norm_num)) (by linarith : 32 * problem.dimension * size ≤ range Float)
  have cell := cellSize_le_climb (κ := Float) positive nonneg
  have costs := SquareProblem.moderate_of_ofCost made moderate (cell.trans_lt climbs)
  have wide : 0 ≤ cellSize Float size := nonneg.trans moderate.le_cellSize
  obtain ⟨final, ended, prices⟩ : ∃ final,
      problem.solution options.initialization = (none, final) ∧
        final.scratch.potentials.Moderate problem.matrix final.scratch.matching _ _ _ :=
    exists_moderate_of_solveSquare costs positive climbs
  obtain ⟨permutation, matched⟩ := exists_perm_of_solveSquare ended
  rw [matched] at prices
  rw [ended]
  dsimp only
  rw [matched]
  exact Certificate.isFinite_dualityGap costs prices wide (mul_nonneg (by positivity) small)
    (by linarith)
    (potentials_lt_range positive few nonneg room)

/-- If a matrix is not too large, and its costs are below the range by 64 times the number of cells
of its square, then no sum in its answer overflows. -/
theorem inRange_of_moderate (success : solve cost options = .ok answer) {size : ℚ}
    (moderate : cost.Moderate options size) (few : cost.rows + cost.cols ≤ 2 ^ 16)
    (room : 64 * ((cost.rows + cost.cols : ℚ) * (cost.rows + cost.cols)) * size ≤ range Float) :
    answer.inRange = true := by
  obtain ⟨_, problem, made, _, _, answered⟩ := solve_eq_ok_iff.mp success
  have nonneg := moderate.nonneg
  have one := Binary64.one_le_error
  have precise := Binary64.precise
  have tall : cost.rows ≤ problem.dimension :=
    SquareProblem.dimension_of_ofCost made ▸ (sides_le_squareSide cost options).1
  have fewer : problem.dimension ≤ cost.rows + cost.cols := by
    rw [SquareProblem.dimension_of_ofCost made, squareSide]
    split_ifs <;> omega
  have positive : 0 < problem.dimension := cost.rows_pos.trans_le tall
  have squares : (problem.dimension : ℚ) * problem.dimension ≤
      (cost.rows + cost.cols) * (cost.rows + cost.cols) :=
    mul_self_le_mul_self (Nat.cast_nonneg _) (by exact_mod_cast fewer)
  have cells : 64 * ((problem.dimension : ℚ) * problem.dimension) * size ≤ range Float :=
    (mul_le_mul_of_nonneg_right (mul_le_mul_of_nonneg_left squares (by norm_num)) nonneg).trans room
  rw [Assignment.inRange, Bool.and_eq_true]
  constructor
  · have least : (1 : ℚ) ≤ problem.dimension := by exact_mod_cast positive
    have short : (cost.rows : ℚ) ≤ 2 ^ 16 := by exact_mod_cast (by omega : cost.rows ≤ 2 ^ 16)
    have rows : (cost.rows : ℚ) * size ≤ problem.dimension * problem.dimension * size := by
      refine mul_le_mul_of_nonneg_right ?_ nonneg
      exact_mod_cast tall.trans (Nat.le_mul_self problem.dimension)
    have errors := mul_le_mul_of_nonneg_right short (by linarith : 0 ≤ error Float)
    exact isFinite_totalCost_of_solve success moderate (by linarith)
  · have gap := isFinite_dualityGap_of_ofCost made moderate positive (by omega) cells
    rw [Option.all_eq_true]
    intro certificate attached
    cases verify : options.verify with
    | true =>
      rw [answered, problem.certificate_answer cost verify] at attached
      cases attached
      exact gap
    | false =>
      rw [answered] at attached
      simp [SquareProblem.answer, Extraction.toAssignment, verify] at attached

/-- The certificate of an answer is that of its square. -/
theorem exists_compute_of_solve (success : solve cost options = .ok answer)
    {certificate : Certificate Float} (attached : answer.certificate = some certificate) :
    ∃ problem colOf potentials, SquareProblem.ofCost cost options = .ok problem ∧
      certificate = Certificate.compute problem.matrix colOf potentials := by
  obtain ⟨_, problem, made, _, _, rfl⟩ := solve_eq_ok_iff.mp success
  cases verify : options.verify with
  | true =>
    rw [problem.certificate_answer cost verify] at attached
    exact ⟨problem, _, _, made, (Option.some.inj attached).symm⟩
  | false =>
    simp [SquareProblem.answer, Extraction.toAssignment, verify] at attached

/-- Nothing but its objectives and the gap between them can overflow in the certificate of an
answer. -/
theorem isFinite_certificate_of_solve (success : solve cost options = .ok answer)
    {certificate : Certificate Float} (attached : answer.certificate = some certificate) :
    certificate.tolerance.isFinite = true ∧
      (certificate.dualityGap.isFinite = true →
        certificate.primalObjective.isFinite = true ∧
          certificate.dualObjective.isFinite = true) := by
  obtain ⟨problem, colOf, potentials, made, rfl⟩ := exists_compute_of_solve success attached
  have scale := Certificate.isFinite_scale (problem.isFinite_get made)
  exact ⟨Binary64.isFinite_mul_billionth scale, Binary64.isFinite_of_abs_sub⟩

end

end LinearAssignment
