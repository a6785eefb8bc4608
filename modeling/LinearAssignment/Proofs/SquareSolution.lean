import LinearAssignment.Proofs.Augmentation
import LinearAssignment.Proofs.RowReduction
import LinearAssignment.SquareSolution

/-! # The matching of a solved square

A solve that strands no row ends with a permutation, in any arithmetic and from any scratch memory.
-/

namespace LinearAssignment

open CostNumber (ofNat)

variable {κ : Type} [CostNumber κ] {m n : Nat} {matrix : SquareMatrix κ n}
  {initialization : DualStart} {scratch : Scratch κ m} {tally : Tally} {final : Progress κ n}

@[simp] theorem Scratch.cleared_matching (scratch : Scratch κ m) (n : Nat) :
    (scratch.cleared n).matching = .empty := rfl

@[simp] theorem Scratch.cleared_row (scratch : Scratch κ m) (row : Fin n) :
    (scratch.cleared n).potentials.row.get row = ofNat 0 := by
  simp only [Scratch.cleared, refill_eq]
  exact Vector.getElem_replicate row.isLt

@[simp] theorem Scratch.cleared_col (scratch : Scratch κ m) (col : Fin n) :
    (scratch.cleared n).potentials.col.get col = ofNat 0 := by
  simp only [Scratch.cleared, refill_eq]
  exact Vector.getElem_replicate col.isLt

/-- The scratch that a workspace hands out is cleared. -/
theorem Workspace.eq_cleared_of_prepare {workspace : Workspace κ} {capacity : Nat}
    {prepared : Scratch κ n} (granted : workspace.prepare n = .ok (capacity, prepared)) :
    prepared = workspace.scratch.cleared n := by
  rw [prepare] at granted
  cases room : reserve workspace.capacity n with
  | error cause => simp [room, bind, Except.bind] at granted
  | ok capacity' =>
    simp only [room, bind, Except.bind, pure, Except.pure, Except.ok.injEq,
      Prod.mk.injEq] at granted
    exact granted.2.symm

namespace Progress

/-- Nothing is reduced in cleared scratch. -/
theorem Reduced.begin (matrix : SquareMatrix κ n) (scratch : Scratch κ m) (tally : Tally) :
    (Progress.begin (scratch.cleared n) tally).Reduced matrix [] where
  consistent := Matching.consistent_empty
  row_eq := scratch.cleared_row
  col_eq := scratch.cleared_col
  free row _ := Matching.colOf_empty row
  tight row col paired := by simp [Progress.begin] at paired

/-- Either start reduces the rows that it looks at: none, or all. -/
theorem Reduced.startAt (matrix : SquareMatrix κ n) (initialization : DualStart)
    (scratch : Scratch κ m) (tally : Tally) :
    ((Progress.begin (scratch.cleared n) tally).startAt matrix initialization).Reduced matrix
      (match initialization with
        | .zero => []
        | .rowReduction => List.finRange n) := by
  cases initialization with
  | zero => exact .begin matrix scratch tally
  | rowReduction => exact (Reduced.begin matrix scratch tally).reduceRows

end Progress

/-- A square whose rows are all matched is solved by a permutation. -/
theorem exists_perm_of_solveSquare [LawfulCost κ]
    (success : solveSquare matrix initialization (scratch.cleared n) tally = (none, final)) :
    ∃ permutation : Equiv.Perm (Fin n), final.scratch.matching = .ofPerm permutation := by
  have start := Progress.Reduced.startAt matrix initialization scratch tally
  obtain ⟨consistent, unmatched⟩ := Progress.consistent_of_augmentAll start.consistent success
  refine consistent.exists_eq_ofPerm fun row free => ?_
  exact ((unmatched row).mp free).2 (List.mem_finRange row)

/-- A solve goes on from where some of its rows have led to. -/
theorem solveSquare_of_augmentAll_take {scratch : Scratch κ n} {count : Nat} {next : Progress κ n}
    (reached : ((Progress.begin scratch tally).startAt matrix initialization).augmentAll matrix
      ((List.finRange n).take count) = (none, next)) :
    solveSquare matrix initialization scratch tally =
      next.augmentAll matrix ((List.finRange n).drop count) := by
  rw [solveSquare, ← Progress.augmentAll_append _ reached, List.take_append_drop]

/-- Solving a square counts no exclusions. -/
theorem excludedByLimit_solveSquare (matrix : SquareMatrix κ n) (initialization : DualStart)
    (scratch : Scratch κ n) (tally : Tally) :
    (solveSquare matrix initialization scratch tally).2.tally.metrics.excludedByLimit =
      tally.metrics.excludedByLimit := by
  rw [solveSquare, Progress.excludedByLimit_augmentAll]
  cases initialization with
  | zero => rfl
  | rowReduction => exact Progress.excludedByLimit_reduceRows matrix _

end LinearAssignment
