import LinearAssignment.Proofs.Cost
import LinearAssignment.Proofs.Cost.Rounding
import LinearAssignment.Proofs.Matching
import LinearAssignment.RowReduction

/-! # What row reduction leaves behind

Comparing costs rounds nothing, so the smallest cost of a row is its cost at one of its columns.
After the rows of a list have been reduced, each has its smallest cost as its potential, columns
have none, and the greedy claims form a consistent matching of tight pairs.
-/

namespace LinearAssignment

open CostNumber (isFinite ofNat)

variable {κ : Type} [CostNumber κ] {n : Nat} {matrix : SquareMatrix κ n}
  {progress : Progress κ n} {row : Fin n} {done : List (Fin n)}

/-! ## Row minima -/

namespace SquareMatrix

/-- The columns at which a row costs least. -/
def cheapestCols (matrix : SquareMatrix κ n) (row : Fin n) : Set (Fin n) :=
  {col | ∀ other, matrix.get row col ≤ matrix.get row other}

/-- The smallest cost of a row is its cost at a cheapest column. -/
theorem exists_cheapest [RoundedCost κ] (finite : ∀ col, isFinite (matrix.get row col) = true) :
    ∃ best ∈ matrix.cheapestCols row, matrix.rowMinimum row = matrix.get row best := by
  have costs : ∀ cost ∈ matrix.row row, isFinite cost = true := by
    intro cost member
    obtain ⟨col, _, rfl⟩ := List.mem_map.mp member
    exact finite col
  have member (col : Fin n) : matrix.get row col ∈ matrix.row row :=
    List.mem_map_of_mem (List.mem_finRange col)
  obtain ⟨best, _, least⟩ := List.mem_map.mp
    (CostNumber.minimum_mem (List.ne_nil_of_mem (member row)) costs)
  refine ⟨best, fun other => ?_, least.symm⟩
  rw [RoundedCost.le_iff (finite best) (finite other), least]
  exact CostNumber.value_minimum_le costs (member other)

/-- The columns at which a row tests equal to its smallest cost. -/
def tightCols (matrix : SquareMatrix κ n) (row : Fin n) : Set (Fin n) :=
  {col | (matrix.get row col == matrix.rowMinimum row) = true}

end SquareMatrix

/-! ## The reduction -/

/-- A row claims the lowest of its tight columns that is free. -/
theorem Matching.tightColumn?_eq_some_iff {matching : Matching n} {col : Fin n} :
    matching.tightColumn? matrix row = some col ↔
      IsLeast {other | other ∈ matrix.tightCols row ∧ matching.rowOf.get other = none} col := by
  have claimable (other : Fin n) :
      (matrix.get row other == matrix.rowMinimum row && matching.isFreeCol other) = true ↔
        other ∈ matrix.tightCols row ∧ matching.rowOf.get other = none := by
    rw [Bool.and_eq_true, isFreeCol, Option.isNone_iff_eq_none]
    rfl
  rw [tightColumn?, ← Fin.find?_eq_find?_finRange, Fin.find?_eq_some_iff, claimable]
  refine and_congr_right fun _ => ⟨fun lowest other member => ?_, fun least other below => ?_⟩
  · by_contra above
    have rejected := lowest other (not_le.mp above)
    rw [(claimable other).mpr member] at rejected
    contradiction
  · rw [← Bool.not_eq_true, claimable]
    exact fun member => below.not_ge (least member)

namespace Progress

/-- Some rows have been reduced, starting from zero potentials and an empty matching. -/
structure Reduced (matrix : SquareMatrix κ n) (done : List (Fin n)) (progress : Progress κ n) :
    Prop where
  consistent : progress.scratch.matching.Consistent
  row_eq : ∀ row, progress.scratch.potentials.row.get row =
    if row ∈ done then matrix.rowMinimum row else ofNat 0
  col_eq : ∀ col, progress.scratch.potentials.col.get col = ofNat 0
  free : ∀ row, row ∉ done → progress.scratch.matching.colOf.get row = none
  tight : ∀ row col, progress.scratch.matching.colOf.get row = some col →
    row ∈ done ∧ (matrix.get row col == matrix.rowMinimum row) = true

/-- Reducing a row sets its potential and reports nothing. If the row claims a column, it is matched
with it and counted; otherwise matching and figures stay as they are. -/
theorem reduceRow_cases (matrix : SquareMatrix κ n) (progress : Progress κ n) (row : Fin n) :
    (progress.reduceRow matrix row).scratch.potentials =
        { progress.scratch.potentials with
          row := progress.scratch.potentials.row.set row (matrix.rowMinimum row) row.isLt } ∧
      (progress.reduceRow matrix row).log = progress.log ∧
      (progress.scratch.matching.tightColumn? matrix row = none ∧
          (progress.reduceRow matrix row).scratch.matching = progress.scratch.matching ∧
          (progress.reduceRow matrix row).tally = progress.tally ∨
        ∃ col, progress.scratch.matching.tightColumn? matrix row = some col ∧
          (progress.reduceRow matrix row).scratch.matching =
            progress.scratch.matching.assign row col ∧
          (progress.reduceRow matrix row).tally = progress.tally.countGreedy) := by
  cases claimed : progress.scratch.matching.tightColumn? matrix row with
  | none => simp [reduceRow, claimed]
  | some col => simp [reduceRow, claimed]

/-- A free row gets the column that it claims, and no other row loses or gets one. -/
theorem colOf_reduceRow (matrix : SquareMatrix κ n)
    (free : progress.scratch.matching.colOf.get row = none) (other : Fin n) :
    (progress.reduceRow matrix row).scratch.matching.colOf.get other =
      if other = row then progress.scratch.matching.tightColumn? matrix row
      else progress.scratch.matching.colOf.get other := by
  obtain ⟨_, _, ⟨unclaimed, same, _⟩ | ⟨col, claimed, assigned, _⟩⟩ :=
    reduceRow_cases matrix progress row
  · rw [same, unclaimed]
    split_ifs with isRow
    · rw [isRow, free]
    · rfl
  · rw [assigned, claimed]
    exact Matching.colOf_assign ..

/-- Reducing one more row. -/
theorem Reduced.reduceRow (reduced : progress.Reduced matrix done) (fresh : row ∉ done) :
    (progress.reduceRow matrix row).Reduced matrix (done ++ [row]) := by
  have free := reduced.free row fresh
  obtain ⟨potentials, _, claim⟩ := reduceRow_cases matrix progress row
  have row_eq : ∀ other, (progress.reduceRow matrix row).scratch.potentials.row.get other =
      if other ∈ done ++ [row] then matrix.rowMinimum other else ofNat 0 := by
    intro other
    rw [potentials]
    refine (get_set ..).trans ?_
    by_cases same : other = row
    · simp [same]
    · simp [same, reduced.row_eq]
  have col_eq : ∀ col, (progress.reduceRow matrix row).scratch.potentials.col.get col =
      ofNat 0 := by
    intro col
    rw [potentials]
    exact reduced.col_eq col
  rcases claim with ⟨_, same, _⟩ | ⟨col, claimed, assigned, _⟩
  · refine ⟨same ▸ reduced.consistent, row_eq, col_eq, fun other outside => ?_, ?_⟩
    · rw [same]
      exact reduced.free other fun member => outside (List.mem_append_left _ member)
    · intro other col paired
      rw [same] at paired
      obtain ⟨member, tight⟩ := reduced.tight other col paired
      exact ⟨List.mem_append_left _ member, tight⟩
  · obtain ⟨⟨tight, freeCol⟩, _⟩ := Matching.tightColumn?_eq_some_iff.mp claimed
    have consistent := (reduced.consistent.consistentBut freeCol).assign_free free
    refine ⟨assigned ▸ consistent, row_eq, col_eq, fun other outside => ?_, ?_⟩
    · simp only [List.mem_append, List.mem_singleton, not_or] at outside
      rw [assigned, Matching.colOf_assign, if_neg outside.2]
      exact reduced.free other outside.1
    · intro other col' paired
      rw [assigned, Matching.colOf_assign] at paired
      split_ifs at paired with same
      · cases paired
        subst same
        exact ⟨by simp, tight⟩
      · obtain ⟨member, tight⟩ := reduced.tight other col' paired
        exact ⟨List.mem_append_left _ member, tight⟩

/-- Reducing some rows, one after the other. -/
theorem Reduced.foldl_reduceRow (reduced : progress.Reduced matrix []) {rows : List (Fin n)}
    (distinct : rows.Nodup) :
    (rows.foldl (Progress.reduceRow matrix) progress).Reduced matrix rows := by
  induction rows using List.reverseRecOn with
  | nil => exact reduced
  | append_singleton done row ih =>
    rw [List.nodup_append] at distinct
    rw [List.foldl_append, List.foldl_cons, List.foldl_nil]
    exact (ih distinct.1).reduceRow fun member => distinct.2.2 row member row (by simp) rfl

/-- Reducing all rows. -/
theorem Reduced.reduceRows (reduced : progress.Reduced matrix []) :
    (progress.reduceRows matrix).Reduced matrix (List.finRange n) :=
  reduced.foldl_reduceRow (List.nodup_finRange n)

/-- Reducing rows counts no exclusions. -/
theorem excludedByLimit_reduceRows (matrix : SquareMatrix κ n) (progress : Progress κ n) :
    (progress.reduceRows matrix).tally.metrics.excludedByLimit =
      progress.tally.metrics.excludedByLimit := by
  have step : ∀ (progress : Progress κ n) (row : Fin n),
      (progress.reduceRow matrix row).tally.metrics.excludedByLimit =
        progress.tally.metrics.excludedByLimit := by
    intro progress row
    obtain ⟨_, _, ⟨_, _, same⟩ | ⟨_, _, _, counted⟩⟩ := reduceRow_cases matrix progress row
    · rw [same]
    · rw [counted]
      rfl
  rw [reduceRows]
  induction List.finRange n generalizing progress with
  | nil => rfl
  | cons row rest ih => exact (ih _).trans (step progress row)

end Progress

end LinearAssignment
