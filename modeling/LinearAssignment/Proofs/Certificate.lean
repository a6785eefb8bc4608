import LinearAssignment.Certificate
import LinearAssignment.Proofs.Matrix
import LinearAssignment.Proofs.Optimality
import Mathlib.Algebra.BigOperators.Fin

/-! # What a certificate shows

In exact arithmetic an accepted certificate bounds how far its permutation is from the optimum,
whatever potentials it was made with: matched pairs cost at most one tolerance more than their
potentials are worth and all others at most one tolerance less, and both sums run over all rows.
Conversely, where potentials price a permutation, its certificate is accepted and leaves nothing to
the tolerance.
-/

namespace LinearAssignment

open CostNumber (billionth isFinite larger magnitude ofNat total)
open ExactCost (finite)

/-- The cost of a permutation, its pairs added in the order of their rows. -/
def SquareMatrix.costOf {κ : Type} [CostNumber κ] {n : Nat} (matrix : SquareMatrix κ n)
    (permutation : Equiv.Perm (Fin n)) : κ :=
  total ((List.finRange n).map fun row => matrix.get row (permutation row))

/-! ## The parts of a certificate -/

namespace Certificate

variable {κ : Type} [CostNumber κ] {n : Nat} {matrix : SquareMatrix κ n}
  {potentials : Potentials κ n} {colOf : Vector (Option (Fin n)) n}
  {permutation : Equiv.Perm (Fin n)}

theorem tolerance_compute :
    (compute matrix colOf potentials).tolerance = scale matrix * billionth := rfl

theorem primalObjective_compute :
    (compute matrix (Matching.ofPerm permutation).colOf potentials).primalObjective =
      matrix.costOf permutation := by
  have pairs : matchedCosts matrix (Matching.ofPerm permutation).colOf =
      (List.finRange n).map fun row => matrix.get row (permutation row) := by
    rw [matchedCosts, ← List.filterMap_eq_map]
    apply List.filterMap_congr
    intro row _
    rw [Matching.colOf_ofPerm]
    rfl
  rw [SquareMatrix.costOf, ← pairs]
  rfl

theorem dualObjective_compute :
    (compute matrix colOf potentials).dualObjective =
      total potentials.row.toList + total potentials.col.toList := rfl

theorem dualityGap_compute :
    (compute matrix colOf potentials).dualityGap =
      magnitude ((compute matrix colOf potentials).primalObjective -
        (compute matrix colOf potentials).dualObjective) := rfl

theorem mem_cellIndices (row col : Fin n) : (row, col) ∈ cellIndices n := by
  simp [cellIndices]

theorem dualFeasible_compute_iff :
    (compute matrix colOf potentials).dualFeasible = true ↔
      ∀ row col, ¬ reducedCost matrix potentials row col < -(scale matrix * billionth) := by
  simp only [compute, List.all_eq_true, Bool.not_eq_true', decide_eq_false_iff_not]
  constructor
  · intro all row col
    exact all (row, col) (mem_cellIndices row col)
  · intro all cell _
    exact all cell.1 cell.2

/-- Only the matched pair of every row is looked at. -/
theorem complementarySlackness_compute_iff :
    (compute matrix (Matching.ofPerm permutation).colOf potentials).complementarySlackness = true ↔
      ∀ row, ¬ scale matrix * billionth <
        magnitude (reducedCost matrix potentials row (permutation row)) := by
  simp only [compute, List.all_eq_true, Matching.colOf_ofPerm, Option.some.injEq,
    Bool.not_eq_true', Bool.and_eq_false_iff, decide_eq_false_iff_not]
  constructor
  · intro all row
    exact (all _ (mem_cellIndices row (permutation row))).resolve_left (not_not_intro rfl)
  · rintro all ⟨row, col⟩ _
    by_cases paired : permutation row = col
    · subst paired
      exact .inr (all row)
    · exact .inl paired

theorem isOptimal_compute_iff :
    (compute matrix colOf potentials).isOptimal = true ↔
      (compute matrix colOf potentials).complementarySlackness = true ∧
        (compute matrix colOf potentials).dualFeasible = true ∧
        (compute matrix colOf potentials).dualityGap ≤
          scale matrix * billionth * ofNat (max n 1) := by
  simp only [isOptimal, Bool.and_eq_true, decide_eq_true_eq, and_assoc]
  rfl

end Certificate

/-! ## Exact evaluation -/

variable {n : Nat} {matrix : SquareMatrix ExactCost n} {potentials : Potentials ExactCost n}
  {permutation : Equiv.Perm (Fin n)}

private theorem total_finRange (costs : Fin n → ExactCost)
    (rational : ∀ i, isFinite (costs i) = true) :
    total ((List.finRange n).map costs) = finite (∑ i, (costs i).value) := by
  have values : (List.finRange n).map costs =
      ((List.finRange n).map fun i => (costs i).value).map finite := by
    rw [List.map_map]
    exact List.map_congr_left fun i _ => ExactCost.eq_finite_value (rational i)
  rw [values, ExactCost.total_finite, Fin.sum_univ_def]

private theorem total_toList (costs : Vector ExactCost n)
    (rational : ∀ i, isFinite (costs.get i) = true) :
    total costs.toList = finite (∑ i, (costs.get i).value) := by
  have entries : costs.toList = (List.finRange n).map costs.get := by
    rw [← List.ofFn_eq_map, ← Vector.toList_ofFn]
    exact congrArg Vector.toList (Vector.ofFn_getElem.symm : costs = Vector.ofFn fun i => costs[i])
  rw [entries, total_finRange costs.get rational]

theorem SquareMatrix.costOf_eq (rational : matrix.Rational) (permutation : Equiv.Perm (Fin n)) :
    matrix.costOf permutation = finite (∑ row, (matrix.get row (permutation row)).value) :=
  total_finRange _ fun row => rational row (permutation row)

theorem SquareMatrix.costOf_ne_bottom (proper : ∀ row col, matrix.get row col ≠ .bottom)
    (permutation : Equiv.Perm (Fin n)) : matrix.costOf permutation ≠ .bottom := by
  apply ExactCost.total_ne_bottom
  intro a member
  obtain ⟨row, _, rfl⟩ := List.mem_map.mp member
  exact proper row (permutation row)

/-- A cost is the largest magnitude of the costs of a square, but at least one. -/
structure SquareMatrix.HasScale (matrix : SquareMatrix ExactCost n) (scale : ExactCost) : Prop where
  one_le : ofNat 1 ≤ scale
  magnitude_le : ∀ row col, magnitude (matrix.get row col) ≤ scale
  attained : scale = ofNat 1 ∨ ∃ row col, scale = magnitude (matrix.get row col)

namespace Certificate

theorem reducedCost_eq (rational : matrix.Rational) (prices : potentials.Rational)
    (row col : Fin n) :
    reducedCost matrix potentials row col = finite (reduced matrix potentials row col) := by
  rw [reducedCost, reduced, ExactCost.eq_finite_value (rational row col),
    ExactCost.eq_finite_value (prices.row row), ExactCost.eq_finite_value (prices.col col)]
  simp only [ExactCost.finite_sub, ExactCost.value_finite]

theorem dualObjective_eq {colOf : Vector (Option (Fin n)) n} (prices : potentials.Rational) :
    (compute matrix colOf potentials).dualObjective =
      finite (∑ row, (potentials.row.get row).value + ∑ col, (potentials.col.get col).value) := by
  rw [dualObjective_compute, total_toList _ prices.row, total_toList _ prices.col,
    ExactCost.finite_add]

/-- The scale of a square is the largest magnitude of its costs, but at least one. -/
theorem hasScale_scale (matrix : SquareMatrix ExactCost n) : matrix.HasScale (scale matrix) := by
  obtain ⟨above, bound, attained⟩ :=
    ExactCost.foldl_larger (matrix.cells.toList.map magnitude) (ofNat 1)
  refine ⟨above, ?_, ?_⟩
  · intro row col
    exact bound _ (List.mem_map_of_mem (SquareMatrix.mem_cells_iff.mpr ⟨row, col, rfl⟩))
  · rcases attained with same | member
    · exact .inl same
    · obtain ⟨a, member, same⟩ := List.mem_map.mp member
      obtain ⟨row, col, rfl⟩ := SquareMatrix.mem_cells_iff.mp member
      exact .inr ⟨row, col, same.symm⟩

/-- The tolerance of a square of rational costs is rational. -/
theorem exists_tolerance (rational : matrix.Rational) :
    ∃ tolerance : ℚ, 0 ≤ tolerance ∧ scale matrix * billionth = finite tolerance := by
  obtain ⟨above, _, attained⟩ := hasScale_scale matrix
  obtain ⟨largest, same⟩ : ∃ largest : ℚ, scale matrix = finite largest := by
    rcases attained with same | ⟨row, col, same⟩
    · exact ⟨1, same.trans (ExactCost.ofNat_eq 1)⟩
    · rw [ExactCost.eq_finite_value (rational row col), ExactCost.magnitude_finite] at same
      exact ⟨_, same⟩
  rw [same, ExactCost.ofNat_eq, ExactCost.finite_le_finite, Nat.cast_one] at above
  refine ⟨largest * (1 / 1000000000), ?_, ?_⟩
  · linarith
  · rw [same, ExactCost.billionth_eq, ExactCost.finite_mul]

/-- A cost that is infinite makes the tolerance infinite. -/
theorem tolerance_eq_top {row col : Fin n} (unbounded : matrix.get row col = .top) :
    scale matrix * billionth = .top := by
  have above := (hasScale_scale matrix).magnitude_le row col
  rw [unbounded] at above
  rw [ExactCost.eq_top_of_le above, ExactCost.billionth_eq, ExactCost.top_mul_finite (by norm_num)]

/-! ## Soundness -/

/-- Potentials under which all matched pairs are nearly tight are rational, because every row and
every column is matched. -/
theorem rational_of_complementarySlackness (rational : matrix.Rational)
    (slackness : (compute matrix (Matching.ofPerm permutation).colOf
      potentials).complementarySlackness = true) :
    potentials.Rational := by
  obtain ⟨tolerance, _, same⟩ := exists_tolerance rational
  rw [complementarySlackness_compute_iff, same] at slackness
  have prices : ∀ row, isFinite (potentials.row.get row) = true ∧
      isFinite (potentials.col.get (permutation row)) = true := by
    intro row
    have near := slackness row
    have isFinite : isFinite (reducedCost matrix potentials row (permutation row)) = true := by
      cases difference : reducedCost matrix potentials row (permutation row) with
      | bottom =>
        rw [difference] at near
        exact absurd (ExactCost.finite_lt_top tolerance) near
      | finite a => rfl
      | top =>
        rw [difference] at near
        exact absurd (ExactCost.finite_lt_top tolerance) near
    obtain ⟨above, col⟩ := ExactCost.isFinite_of_sub isFinite
    exact ⟨(ExactCost.isFinite_of_sub above).2, col⟩
  constructor
  · intro row
    exact (prices row).1
  · intro col
    have price := (prices (permutation.symm col)).2
    rwa [permutation.apply_symm_apply] at price

/-- A permutation with an accepted certificate costs more than any other by at most two tolerances
for every row, whatever its potentials are. The tolerance is 10⁻⁹ of the largest magnitude of a cost
or of one. Costs may be infinite, but not below all others. -/
theorem costOf_le_of_isOptimal (proper : ∀ row col, matrix.get row col ≠ .bottom)
    (accepted : (compute matrix (Matching.ofPerm permutation).colOf potentials).isOptimal = true) :
    (∃ scale, matrix.HasScale scale ∧
      (compute matrix (Matching.ofPerm permutation).colOf potentials).tolerance =
        scale * billionth) ∧
    ∀ other : Equiv.Perm (Fin n), matrix.costOf permutation ≤ matrix.costOf other +
      ofNat (2 * n) * (compute matrix (Matching.ofPerm permutation).colOf potentials).tolerance := by
  obtain ⟨slackness, feasible, _⟩ := isOptimal_compute_iff.mp accepted
  refine ⟨⟨scale matrix, hasScale_scale matrix, tolerance_compute⟩, ?_⟩
  intro other
  rw [tolerance_compute]
  by_cases rational : matrix.Rational
  · have prices := rational_of_complementarySlackness rational slackness
    obtain ⟨tolerance, _, same⟩ := exists_tolerance rational
    simp only [complementarySlackness_compute_iff, dualFeasible_compute_iff, same,
      reducedCost_eq rational prices, ExactCost.magnitude_finite, ExactCost.neg_finite,
      ExactCost.finite_lt_finite, not_lt] at slackness feasible
    have within := sum_value_le_of_within tolerance
      (fun row => (le_abs_self _).trans (slackness row)) feasible other
    rw [same, matrix.costOf_eq rational, matrix.costOf_eq rational, ExactCost.ofNat_eq,
      ExactCost.finite_mul, ExactCost.finite_add, ExactCost.finite_le_finite]
    push_cast
    exact within
  · -- Some cost is infinite, and so is the tolerance.
    simp only [SquareMatrix.Rational, not_forall] at rational
    obtain ⟨row, col, infinite⟩ := rational
    have unbounded : matrix.get row col = .top := by
      cases entry : matrix.get row col with
      | bottom => exact absurd entry (proper row col)
      | finite a =>
        rw [entry] at infinite
        exact absurd rfl infinite
      | top => rfl
    have positive : (0 : ℚ) < (2 * n : ℕ) := Nat.cast_pos.mpr (Nat.mul_pos two_pos row.pos)
    rw [tolerance_eq_top unbounded, ExactCost.ofNat_eq, ExactCost.finite_mul_top positive,
      ExactCost.add_top (matrix.costOf_ne_bottom proper other)]
    exact ExactCost.le_top _

/-- A permutation that is not the cheapest, but so near to it that its certificate is accepted. -/
theorem costOf_le_of_isOptimal_suboptimal :
    let matrix : SquareMatrix ExactCost 2 :=
      ⟨#[finite 3, finite 1, finite 2, finite (1 / 10000000000)], rfl⟩
    let potentials : Potentials ExactCost 2 := ⟨#v[finite 1, finite 0], #v[finite 2, finite 0]⟩
    let certificate := compute matrix (Matching.ofPerm (Equiv.refl (Fin 2))).colOf potentials
    (∀ row col, matrix.get row col ≠ .bottom) ∧ certificate.isOptimal = true ∧
      matrix.costOf (Equiv.swap 0 1) < matrix.costOf (Equiv.refl (Fin 2)) ∧
      matrix.costOf (Equiv.refl (Fin 2)) ≤
        matrix.costOf (Equiv.swap 0 1) + ofNat (2 * 2) * certificate.tolerance := by
  intro matrix potentials certificate
  have proper : ∀ row col, matrix.get row col ≠ .bottom := by decide
  have accepted : certificate.isOptimal = true := by decide +kernel
  have cheaper : matrix.costOf (Equiv.swap 0 1) < matrix.costOf (Equiv.refl (Fin 2)) := by
    decide +kernel
  exact ⟨proper, accepted, cheaper, (costOf_le_of_isOptimal proper accepted).2 (Equiv.swap 0 1)⟩

/-! ## Completeness -/

/-- A certificate that shows a permutation to be a cheapest one without any use of its tolerance. -/
structure Perfect (certificate : Certificate ExactCost) (matrix : SquareMatrix ExactCost n)
    (permutation : Equiv.Perm (Fin n)) : Prop where
  complementarySlackness_eq : certificate.complementarySlackness = true
  dualFeasible_eq : certificate.dualFeasible = true
  dualityGap_eq : certificate.dualityGap = finite 0
  primalObjective_eq : certificate.primalObjective = matrix.costOf permutation
  primalObjective_le : ∀ other, certificate.primalObjective ≤ matrix.costOf other
  isOptimal_eq : certificate.isOptimal = true

end Certificate

/-- The certificate of a priced permutation is perfect. -/
theorem Priced.perfect (priced : Priced matrix potentials (.ofPerm permutation))
    (rational : matrix.Rational) :
    (Certificate.compute matrix (Matching.ofPerm permutation).colOf potentials).Perfect matrix
      permutation := by
  obtain ⟨tolerance, nonneg, same⟩ := Certificate.exists_tolerance rational
  have slackness : (Certificate.compute matrix (Matching.ofPerm permutation).colOf
      potentials).complementarySlackness = true := by
    rw [Certificate.complementarySlackness_compute_iff]
    intro row
    rw [Certificate.reducedCost_eq rational priced.rational,
      priced.tight row _ (Matching.colOf_ofPerm permutation row), same,
      ExactCost.magnitude_finite, ExactCost.finite_lt_finite, abs_zero, not_lt]
    exact nonneg
  have feasible : (Certificate.compute matrix (Matching.ofPerm permutation).colOf
      potentials).dualFeasible = true := by
    rw [Certificate.dualFeasible_compute_iff]
    intro row col
    have above := priced.feasible row col (by simp)
    rw [Certificate.reducedCost_eq rational priced.rational, same, ExactCost.neg_finite,
      ExactCost.finite_lt_finite, not_lt]
    linarith
  have gap : (Certificate.compute matrix (Matching.ofPerm permutation).colOf
      potentials).dualityGap = finite 0 := by
    rw [Certificate.dualityGap_compute, Certificate.primalObjective_compute,
      Certificate.dualObjective_eq priced.rational, matrix.costOf_eq rational,
      priced.sum_value_eq_potentials, ExactCost.finite_sub, sub_self, ExactCost.magnitude_finite,
      abs_zero]
  refine ⟨slackness, feasible, gap, Certificate.primalObjective_compute, ?_, ?_⟩
  · intro other
    rw [Certificate.primalObjective_compute, matrix.costOf_eq rational, matrix.costOf_eq rational,
      ExactCost.finite_le_finite]
    exact priced.sum_value_le other
  · rw [Certificate.isOptimal_compute_iff, gap, same, ExactCost.ofNat_eq, ExactCost.finite_mul,
      ExactCost.finite_le_finite]
    exact ⟨slackness, feasible, mul_nonneg nonneg (Nat.cast_nonneg _)⟩

end LinearAssignment
