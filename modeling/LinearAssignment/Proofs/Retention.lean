import LinearAssignment.Proofs.Assignment
import LinearAssignment.Proofs.SquareProblem

/-! # What is retained of a pairing

In exact arithmetic an assignment is determined by a pairing and the limit: it records the pairs
that cost no more, its total is the sum of their costs, and the dropped pairs are all the others.
-/

namespace LinearAssignment

open ExactCost (finite)

/-- Both sides of an assignment are those of a pairing. -/
structure Assignment.Records {κ : Type} {rows cols : Nat} (assignment : Assignment κ)
    (pairing : Pairing rows cols) : Prop where
  rowToCol_eq : assignment.rowToCol = List.ofFn fun row => (pairing row).map Fin.val
  colToRow_eq : assignment.colToRow = List.ofFn fun col => (pairing.symm col).map Fin.val

/-- Whether a pair costs no more than a limit. -/
def CostMatrix.allows {κ : Type} [CostNumber κ] (cost : CostMatrix κ) (limit : κ)
    (row : Fin cost.rows) (col : Fin cost.cols) : Bool :=
  decide (cost.get row col ≤ limit)

/-- Whether a pair costs more than a limit. -/
def CostMatrix.excludes {κ : Type} [CostNumber κ] (cost : CostMatrix κ) (limit : κ)
    (row : Fin cost.rows) (col : Fin cost.cols) : Bool :=
  decide (limit < cost.get row col)

section Limits

variable {cost : CostMatrix ExactCost} {row : Fin cost.rows} {col : Fin cost.cols}

@[simp] theorem CostMatrix.allows_top : cost.allows .top row col = true := by
  rw [allows, ExactCost.eq_finite_value (cost.isFinite_get row col)]
  rfl

@[simp] theorem CostMatrix.allows_finite_iff {limit : ℚ} :
    cost.allows (.finite limit) row col = true ↔ cost.value row col ≤ limit := by
  rw [allows, decide_eq_true_iff, ExactCost.eq_finite_value (cost.isFinite_get row col),
    ExactCost.finite_le_finite]
  rfl

/-- A pair is allowed or excluded. -/
theorem CostMatrix.allows_eq_not_excludes (limit : ExactCost) :
    cost.allows limit row col = !cost.excludes limit row col := by
  rw [allows, excludes, ← decide_not]
  exact decide_eq_decide.mpr ExactCost.le_iff_not_lt

end Limits

/-- An assignment that retains the pairs of a pairing up to a limit. -/
structure Assignment.Retains (assignment : Assignment ExactCost) (cost : CostMatrix ExactCost)
    (limit : ExactCost) (pairing : Pairing cost.rows cost.cols) : Prop where
  records : assignment.Records (pairing.filter (cost.allows limit))
  totalCost_eq :
    assignment.totalCost = finite ((pairing.filter (cost.allows limit)).total cost.value)
  excluded_eq :
    assignment.metrics.excludedByLimit = (pairing.filter (cost.excludes limit)).size

/-! ## Full sides -/

private theorem unmatchedIndices_ofFn {k : Nat} (partner : Fin k → Option Nat)
    (matched : ∀ index, partner index ≠ none) : unmatchedIndices (List.ofFn partner) = [] := by
  rw [unmatchedIndices, List.map_eq_nil_iff, List.filter_eq_nil_iff]
  rintro ⟨entry, index⟩ member unmatched
  obtain ⟨bound, rfl⟩ := List.mk_mem_zipIdx_iff_getElem?.mp member |> List.getElem?_eq_some_iff.mp
  rw [List.length_ofFn] at bound
  apply matched ⟨index, bound⟩
  simpa using unmatched

namespace Assignment.Records

variable {κ : Type} {rows cols : Nat} {assignment : Assignment κ} {pairing : Pairing rows cols}

/-- No row is unmatched if there are as many pairs as rows. -/
theorem unmatchedRows_eq_nil (records : assignment.Records pairing)
    (full : pairing.size = rows) : assignment.unmatchedRows = [] := by
  rw [Assignment.unmatchedRows, records.rowToCol_eq]
  apply unmatchedIndices_ofFn
  intro row isOpen
  have count := pairing.card_open_add_size
  have some : 0 < Fintype.card {row // pairing row = none} :=
    Fintype.card_pos_iff.mpr ⟨row, by simpa using isOpen⟩
  omega

/-- No column is unmatched if there are as many pairs as columns. -/
theorem unmatchedCols_eq_nil (records : assignment.Records pairing)
    (full : pairing.size = cols) : assignment.unmatchedCols = [] := by
  rw [Assignment.unmatchedCols, records.colToRow_eq]
  apply unmatchedIndices_ofFn
  intro col isOpen
  have count := Pairing.card_open_add_size pairing.symm
  have some : 0 < Fintype.card {col // pairing.symm col = none} :=
    Fintype.card_pos_iff.mpr ⟨col, by simpa using isOpen⟩
  rw [pairing.size_symm] at count
  omega

/-- As many rows are matched as there are pairs. -/
theorem matchedCount_eq (records : assignment.Records pairing) :
    assignment.matchedCount = pairing.size := by
  rw [Assignment.matchedCount, records.rowToCol_eq, List.ofFn_eq_map, List.countP_map,
    pairing.size_eq_countP]
  refine List.countP_congr fun row _ => ?_
  rw [Function.comp_apply, Option.isSome_map]

end Assignment.Records

/-! ## Extraction -/

namespace Extraction

theorem realColumn?_eq_realPart {κ : Type} [CostNumber κ] {n : Nat} {cost : CostMatrix κ}
    (permutation : Equiv.Perm (Fin n)) (row : Fin cost.rows) :
    realColumn? cost (Matching.ofPerm permutation).colOf row =
      (Pairing.realPart permutation : Pairing cost.rows cost.cols) row :=
  Option.ext fun _ => realColumn?_ofPerm.trans Pairing.realPart_eq_some_iff.symm

variable {n : Nat} {cost : CostMatrix ExactCost} {permutation : Equiv.Perm (Fin n)}
  {limit : ExactCost} {extraction : Extraction ExactCost cost.rows cost.cols}

theorem kept?_eq_filter (permutation : Equiv.Perm (Fin n)) (row : Fin cost.rows) :
    kept? cost (Matching.ofPerm permutation).colOf limit row =
      (Pairing.realPart permutation).filter (cost.allows limit) row := by
  rw [kept?, realColumn?_eq_realPart, Pairing.filter_apply]
  congr 1
  funext col
  exact (CostMatrix.allows_eq_not_excludes limit).symm

/-- The two sides of what is taken up. -/
theorem Collects.records
    (collects : extraction.Collects cost (Matching.ofPerm permutation).colOf limit
      (List.finRange cost.rows)) (metrics : Metrics)
    (certificate : Option (Certificate ExactCost)) :
    (extraction.toAssignment metrics certificate).Records
      ((Pairing.realPart permutation).filter (cost.allows limit)) := by
  constructor
  · refine List.ext_getElem (by simp [toAssignment]) fun index bound bound' => ?_
    rw [List.length_ofFn] at bound'
    have entry := collects.rowToCol ⟨index, bound'⟩
    rw [if_pos (List.mem_finRange _), kept?_eq_filter] at entry
    simp only [toAssignment, List.getElem_map, List.getElem_ofFn, Vector.getElem_toList]
    exact congrArg (Option.map Fin.val) entry
  · refine List.ext_getElem (by simp [toAssignment]) fun index bound bound' => ?_
    rw [List.length_ofFn] at bound'
    have entry : extraction.colToRow.get ⟨index, bound'⟩ =
        ((Pairing.realPart permutation).filter (cost.allows limit)).symm ⟨index, bound'⟩ := by
      refine Option.ext fun row => (collects.sides row ⟨index, bound'⟩).2.trans ?_
      rw [kept?_eq_filter, PEquiv.eq_some_iff]
    simp only [toAssignment, List.getElem_map, List.getElem_ofFn, Vector.getElem_toList]
    exact congrArg (Option.map Fin.val) entry

/-- The total is the sum of the retained costs. -/
theorem Collects.totalCost_eq_total
    (collects : extraction.Collects cost (Matching.ofPerm permutation).colOf limit
      (List.finRange cost.rows)) :
    extraction.totalCost =
      finite (((Pairing.realPart permutation).filter (cost.allows limit)).total cost.value) := by
  have costs : (List.finRange cost.rows).filterMap (fun row =>
      (kept? cost (Matching.ofPerm permutation).colOf limit row).map (cost.get row)) =
      ((List.finRange cost.rows).filterMap fun row =>
        ((Pairing.realPart permutation).filter (cost.allows limit) row).map
          (cost.value row)).map finite := by
    rw [List.map_filterMap]
    refine List.filterMap_congr fun row _ => ?_
    rw [kept?_eq_filter, Option.map_map]
    refine congrArg (Option.map · _) (funext fun col => ?_)
    exact ExactCost.eq_finite_value (cost.isFinite_get row col)
  rw [collects.totalCost, costs, ExactCost.total_finite, Pairing.total, Pairing.sum_pairs,
    Fin.sum_univ_def]
  congr 1
  induction List.finRange cost.rows with
  | nil => rfl
  | cons row rest ih =>
    rw [List.map_cons, List.sum_cons, ← ih, List.filterMap_cons]
    cases (Pairing.realPart permutation).filter (cost.allows limit) row with
    | none => simp
    | some col => simp

/-- Every pair of the permutation inside the matrix that is not retained is counted. -/
theorem Collects.excluded_eq_size
    (collects : extraction.Collects cost (Matching.ofPerm permutation).colOf limit
      (List.finRange cost.rows)) :
    extraction.excluded = ((Pairing.realPart permutation).filter (cost.excludes limit)).size := by
  rw [collects.excluded, Pairing.size, Finset.card_eq_sum_ones, Pairing.sum_pairs,
    Fin.sum_univ_def]
  induction List.finRange cost.rows with
  | nil => rfl
  | cons row rest ih =>
    rw [List.countP_cons, ih, List.map_cons, List.sum_cons, add_comm, drops,
      realColumn?_eq_realPart, Pairing.filter_apply]
    congr 1
    cases (Pairing.realPart permutation : Pairing cost.rows cost.cols) row with
    | none => simp
    | some col =>
      rw [Option.any_some, Option.filter_some]
      by_cases above : limit < cost.get row col
      · simp [CostMatrix.excludes, above]
      · simp [CostMatrix.excludes, above]

end Extraction

end LinearAssignment
