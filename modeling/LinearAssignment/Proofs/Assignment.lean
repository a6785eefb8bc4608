import LinearAssignment.Proofs.Cost
import LinearAssignment.Proofs.Extraction
import LinearAssignment.Proofs.Matrix

/-! # Sound assignments

What the caller of a solve can rely on without knowing the optimum: the two sides of an assignment
pair the same rows and columns, no pair costs more than the limit, and the total is the sum of the
costs of the pairs in the order of their rows.
-/

namespace LinearAssignment

open CostNumber (total)

variable {κ : Type} [CostNumber κ]

/-- An assignment whose sides agree with each other, with a cost matrix and with a limit. -/
structure Assignment.Sound (assignment : Assignment κ) (cost : CostMatrix κ) (limit : κ) :
    Prop where
  rows_length : assignment.rowToCol.length = cost.rows
  cols_length : assignment.colToRow.length = cost.cols
  col_lt : ∀ row col : Nat, assignment.rowToCol[row]? = some (some col) → col < cost.cols
  row_lt : ∀ row col : Nat, assignment.colToRow[col]? = some (some row) → row < cost.rows
  paired_iff : ∀ row col : Nat,
    assignment.rowToCol[row]? = some (some col) ↔ assignment.colToRow[col]? = some (some row)
  cost_le : ∀ row col : Nat, assignment.rowToCol[row]? = some (some col) →
    ∃ value, cost.get? row col = some value ∧ value ≤ limit
  totalCost_eq : assignment.totalCost =
    total (assignment.pairs.filterMap fun pair => cost.get? pair.1 pair.2)

namespace Extraction

variable {rows cols : Nat} {extraction : Extraction κ rows cols} {metrics : Metrics}
  {certificate : Option (Certificate κ)}

omit [CostNumber κ] in
private theorem partner_eq_some_iff {m k : Nat} (partners : Vector (Option (Fin k)) m)
    (index partner : Nat) :
    (partners.toList.map (·.map Fin.val))[index]? = some (some partner) ↔
      ∃ (i : Fin m) (j : Fin k), i.val = index ∧ j.val = partner ∧ partners.get i = some j := by
  rw [List.getElem?_map, Option.map_eq_some_iff]
  constructor
  · rintro ⟨entry, found, mapped⟩
    obtain ⟨j, rfl, rfl⟩ := Option.map_eq_some_iff.mp mapped
    obtain ⟨bound, found⟩ := List.getElem?_eq_some_iff.mp found
    rw [Vector.length_toList] at bound
    exact ⟨⟨index, bound⟩, j, rfl, rfl, found⟩
  · rintro ⟨i, j, rfl, rfl, paired⟩
    refine ⟨some j, List.getElem?_eq_some_iff.mpr ⟨?_, paired⟩, rfl⟩
    rw [Vector.length_toList]
    exact i.isLt

omit [CostNumber κ] in
theorem rowToCol_toAssignment_iff (row col : Nat) :
    (extraction.toAssignment metrics certificate).rowToCol[row]? = some (some col) ↔
      ∃ i j, i.val = row ∧ j.val = col ∧ extraction.rowToCol.get i = some j :=
  partner_eq_some_iff ..

omit [CostNumber κ] in
theorem colToRow_toAssignment_iff (row col : Nat) :
    (extraction.toAssignment metrics certificate).colToRow[col]? = some (some row) ↔
      ∃ j i, j.val = col ∧ i.val = row ∧ extraction.colToRow.get j = some i :=
  partner_eq_some_iff ..

omit [CostNumber κ] in
/-- The pairs of an assignment are those of the extraction, by ascending row. -/
theorem pairs_toAssignment :
    (extraction.toAssignment metrics certificate).pairs =
      (List.finRange rows).filterMap fun row =>
        (extraction.rowToCol.get row).map fun col => (row.val, col.val) := by
  have indexed : (extraction.toAssignment metrics certificate).rowToCol.zipIdx =
      (List.finRange rows).map fun row =>
        ((extraction.rowToCol.get row).map Fin.val, row.val) := by
    refine List.ext_getElem (by simp [toAssignment]) fun index bound _ => ?_
    simp only [toAssignment, List.getElem_zipIdx, List.getElem_map, List.getElem_finRange,
      Vector.getElem_toList, Nat.zero_add, Fin.val_cast]
    rfl
  rw [Assignment.pairs, indexed, List.filterMap_map]
  exact List.filterMap_congr fun row _ => Option.map_map ..

variable {n : Nat} {cost : CostMatrix κ} {colOf : Vector (Option (Fin n)) n} {limit : κ}
  {collected : Extraction κ cost.rows cost.cols}

/-- The two sides of what is taken up from all rows. -/
theorem Collects.sides (collects : collected.Collects cost colOf limit (List.finRange cost.rows))
    (row : Fin cost.rows) (col : Fin cost.cols) :
    (collected.rowToCol.get row = some col ↔ kept? cost colOf limit row = some col) ∧
      (collected.colToRow.get col = some row ↔ kept? cost colOf limit row = some col) := by
  rw [collects.rowToCol, collects.colToRow]
  simp

/-- The costs of the pairs of an assignment are those that extraction has added. -/
theorem Collects.costs_eq
    (collects : collected.Collects cost colOf limit (List.finRange cost.rows)) :
    (collected.toAssignment metrics certificate).pairs.filterMap
        (fun pair => cost.get? pair.1 pair.2) =
      (List.finRange cost.rows).filterMap fun row =>
        (kept? cost colOf limit row).map (cost.get row) := by
  rw [pairs_toAssignment, List.filterMap_filterMap]
  refine List.filterMap_congr fun row member => ?_
  rw [collects.rowToCol, if_pos member]
  cases kept? cost colOf limit row <;> simp

/-- What is taken up from all rows is a sound assignment, if the limit is a number. -/
theorem Collects.sound [LawfulCost κ]
    (collects : collected.Collects cost colOf limit (List.finRange cost.rows))
    (number : CostNumber.isNaN limit = false) :
    (collected.toAssignment metrics certificate).Sound cost limit where
  rows_length := by simp [toAssignment]
  cols_length := by simp [toAssignment]
  col_lt row col paired := by
    obtain ⟨i, j, rfl, rfl, _⟩ := (rowToCol_toAssignment_iff row col).mp paired
    exact j.isLt
  row_lt row col paired := by
    obtain ⟨j, i, rfl, rfl, _⟩ := (colToRow_toAssignment_iff row col).mp paired
    exact i.isLt
  paired_iff row col := by
    rw [rowToCol_toAssignment_iff, colToRow_toAssignment_iff]
    constructor
    · rintro ⟨i, j, rfl, rfl, paired⟩
      exact ⟨j, i, rfl, rfl, (collects.sides i j).2.mpr ((collects.sides i j).1.mp paired)⟩
    · rintro ⟨j, i, rfl, rfl, paired⟩
      exact ⟨i, j, rfl, rfl, (collects.sides i j).1.mpr ((collects.sides i j).2.mp paired)⟩
  cost_le row col paired := by
    obtain ⟨i, j, rfl, rfl, taken⟩ := (rowToCol_toAssignment_iff row col).mp paired
    have kept := kept?_eq_some_iff.mp ((collects.sides i j).1.mp taken)
    have finite := cost.finite (cost.get i j) (Array.getElem_mem _)
    exact ⟨cost.get i j, cost.get?_val i j,
      LawfulCost.le_of_not_lt number (LawfulCost.isNaN_of_isFinite finite) kept.2⟩
  totalCost_eq := by
    rw [collects.costs_eq]
    exact collects.totalCost

end Extraction

end LinearAssignment
