import LinearAssignment.Proofs.Accounts
import LinearAssignment.Proofs.Cost.Binary64
import Mathlib.Data.Set.Finite.Lemmas

/-! # The greedy start takes all that it can

Row reduction goes through the rows in ascending order. A column is free for a row exactly if no row
before it holds it, and no later row takes a column away. So in the end every row holds the lowest
of its tight columns that no row before it holds, and it holds none only if all of them are held.
That much holds in any arithmetic. Where the costs of a row are finite floating-point numbers, its
tight columns are those at which it costs least.
-/

namespace LinearAssignment

open CostNumber (isFinite ofNat)

variable {κ : Type} [CostNumber κ] {n : Nat} {matrix : SquareMatrix κ n}

namespace Matching

variable {matching before after : Matching n} {row col : Fin n}

/-- The columns that the rows before a row hold. -/
def heldBefore (matching : Matching n) (row : Fin n) : Set (Fin n) :=
  {col | ∃ earlier < row, matching.colOf.get earlier = some col}

/-- A row holds the lowest of its tight columns that no row before it holds, if there is one. -/
def Greedy (matching : Matching n) (matrix : SquareMatrix κ n) (row : Fin n) : Prop :=
  ∀ col, matching.colOf.get row = some col ↔
    IsLeast (matrix.tightCols row \ matching.heldBefore row) col

/-- What is held before a row depends on the rows before it alone. -/
theorem heldBefore_congr
    (same : ∀ earlier < row, after.colOf.get earlier = before.colOf.get earlier) :
    after.heldBefore row = before.heldBefore row := by
  ext col
  constructor
  · rintro ⟨earlier, below, held⟩
    exact ⟨earlier, below, (same earlier below).symm.trans held⟩
  · rintro ⟨earlier, below, held⟩
    exact ⟨earlier, below, (same earlier below).trans held⟩

/-- Whether a row is greedy depends on itself and the rows before it. -/
theorem Greedy.congr (greedy : before.Greedy matrix row)
    (same : ∀ other ≤ row, after.colOf.get other = before.colOf.get other) :
    after.Greedy matrix row := by
  intro col
  rw [same row le_rfl, heldBefore_congr fun earlier below => same earlier below.le]
  exact greedy col

/-- A greedy row is left without a column exactly if the rows before it hold all that are tight
for it. -/
theorem Greedy.colOf_eq_none_iff (greedy : matching.Greedy matrix row) :
    matching.colOf.get row = none ↔ matrix.tightCols row ⊆ matching.heldBefore row := by
  rw [← Set.sdiff_eq_empty]
  constructor
  · intro unmatched
    by_contra claimable
    obtain ⟨col, member, least⟩ := Set.exists_min_image _ id
      (Set.toFinite (matrix.tightCols row \ matching.heldBefore row))
      (Set.nonempty_iff_ne_empty.mpr claimable)
    have held := (greedy col).mpr ⟨member, fun other => least other⟩
    rw [unmatched] at held
    contradiction
  · intro empty
    by_contra matched
    obtain ⟨col, held⟩ := Option.ne_none_iff_exists'.mp matched
    obtain ⟨member, _⟩ := (greedy col).mp held
    rw [empty] at member
    exact member

/-- A column is free for a row behind all matched ones exactly if no row before it holds it. -/
theorem Consistent.rowOf_eq_none_iff (consistent : matching.Consistent)
    (behind : ∀ other, matching.colOf.get other ≠ none → other < row) :
    matching.rowOf.get col = none ↔ col ∉ matching.heldBefore row := by
  constructor
  · rintro free ⟨earlier, _, held⟩
    rw [(consistent earlier col).mp held] at free
    contradiction
  · intro unheld
    by_contra owned
    obtain ⟨owner, owned⟩ := Option.ne_none_iff_exists'.mp owned
    have held := (consistent owner col).mpr owned
    exact unheld ⟨owner, behind owner (by simp [held]), held⟩

end Matching

namespace Progress

variable {progress : Progress κ n} {row : Fin n} {done : List (Fin n)}

/-- A row behind those that have been reduced is greedy, and leaves them as greedy as they were. -/
theorem Reduced.greedy_reduceRow (reduced : progress.Reduced matrix done)
    (ascending : ∀ earlier ∈ done, earlier < row)
    (greedy : ∀ earlier ∈ done, progress.scratch.matching.Greedy matrix earlier) :
    ∀ other ∈ done ++ [row],
      (progress.reduceRow matrix row).scratch.matching.Greedy matrix other := by
  have free := reduced.free row fun member => (ascending row member).false
  have kept : ∀ earlier < row, (progress.reduceRow matrix row).scratch.matching.colOf.get earlier =
      progress.scratch.matching.colOf.get earlier := by
    intro earlier below
    rw [colOf_reduceRow matrix free, if_neg below.ne]
  -- What an earlier row may claim depends on the rows before it, which are not touched. For the row
  -- itself the free columns are those that no row before it holds: no later row is matched yet.
  intro other member
  rcases List.mem_append.mp member with earlier | last
  · have below := ascending other earlier
    exact (greedy other earlier).congr fun between bound => kept between (bound.trans_lt below)
  · obtain rfl := List.mem_singleton.mp last
    have behind : ∀ matched, progress.scratch.matching.colOf.get matched ≠ none →
        matched < other := fun matched held =>
      ascending matched (by_contra fun outside => held (reduced.free matched outside))
    intro col
    rw [colOf_reduceRow matrix free, if_pos rfl, Matching.tightColumn?_eq_some_iff,
      Matching.heldBefore_congr kept]
    simp only [reduced.consistent.rowOf_eq_none_iff behind]
    rfl

/-- Rows that have been reduced in ascending order are greedy. -/
theorem Reduced.greedy_foldl (reduced : progress.Reduced matrix []) {rows : List (Fin n)}
    (ascending : rows.Pairwise (· < ·)) :
    ∀ row ∈ rows,
      (rows.foldl (Progress.reduceRow matrix) progress).scratch.matching.Greedy matrix row := by
  induction rows using List.reverseRecOn with
  | nil => simp
  | append_singleton done row ih =>
    rw [List.pairwise_append] at ascending
    obtain ⟨sorted, _, below⟩ := ascending
    rw [List.foldl_append, List.foldl_cons, List.foldl_nil]
    have distinct : done.Nodup := sorted.imp fun less => less.ne
    exact (reduced.foldl_reduceRow distinct).greedy_reduceRow
      (fun earlier member => below earlier member row (List.mem_singleton_self row)) (ih sorted)

/-- All rows are greedy in the end. -/
theorem Reduced.greedy_reduceRows (reduced : progress.Reduced matrix []) (row : Fin n) :
    (progress.reduceRows matrix).scratch.matching.Greedy matrix row :=
  reduced.greedy_foldl (List.pairwise_lt_finRange n) row (List.mem_finRange row)

end Progress

/-- The tight columns of a row of finite numbers are the cheapest ones. -/
theorem SquareMatrix.tightCols_eq {matrix : SquareMatrix Float n} {row : Fin n}
    (finite : ∀ col, isFinite (matrix.get row col) = true) :
    matrix.tightCols row = matrix.cheapestCols row := by
  obtain ⟨best, cheapest, least⟩ := exists_cheapest finite
  have tight (col : Fin n) : col ∈ matrix.tightCols row ↔
      Binary64.value (matrix.get row col) = Binary64.value (matrix.get row best) := by
    rw [tightCols, Set.mem_ofPred_eq, least]
    exact Binary64.beq_iff (finite col) (finite best)
  have order (col other : Fin n) : matrix.get row col ≤ matrix.get row other ↔
      Binary64.value (matrix.get row col) ≤ Binary64.value (matrix.get row other) :=
    RoundedCost.le_iff (finite col) (finite other)
  ext col
  rw [tight]
  constructor
  · intro same other
    rw [order, same, ← order]
    exact cheapest other
  · intro cheapest'
    exact le_antisymm ((order col best).mp (cheapest' best)) ((order best col).mp (cheapest col))

/-- Row reduction of finite numbers on prepared scratch makes the smallest cost of each row its
potential and leaves the columns without one. The pairs that it claims agree on both sides. Each row
holds the lowest of its cheapest columns that no row before it holds, and it holds none exactly if
the rows before it hold all of them. The matched rows are counted, on top of what has been counted
before. -/
theorem reduceRows_greedy {matrix : SquareMatrix Float n}
    (finite : ∀ row col, isFinite (matrix.get row col) = true) {workspace : Workspace Float}
    {capacity : Nat} {prepared : Scratch Float n}
    (granted : workspace.prepare n = .ok (capacity, prepared)) (tally : Tally) :
    let reduced := (Progress.begin prepared tally).reduceRows matrix
    let matching := reduced.scratch.matching
    (∀ row, ∃ best ∈ matrix.cheapestCols row,
        reduced.scratch.potentials.row.get row = matrix.get row best) ∧
      (∀ col, reduced.scratch.potentials.col.get col = ofNat 0) ∧
      matching.Consistent ∧
      (∀ row col, matching.colOf.get row = some col ↔
        IsLeast (matrix.cheapestCols row \ matching.heldBefore row) col) ∧
      (∀ row, matching.colOf.get row = none ↔
        matrix.cheapestCols row ⊆ matching.heldBefore row) ∧
      reduced.tally.metrics.greedyAssignments =
        tally.metrics.greedyAssignments + matching.matchedRows := by
  intro reduced matching
  obtain rfl := Workspace.eq_cleared_of_prepare granted
  have start := Progress.Reduced.begin matrix workspace.scratch tally
  have final : reduced.Reduced matrix (List.finRange n) := start.reduceRows
  have greedy (row : Fin n) : matching.Greedy matrix row := start.greedy_reduceRows row
  have counted := congrArg (·.metrics.greedyAssignments) (start.tally_reduceRows rfl)
  refine ⟨fun row => ?_, final.col_eq, final.consistent, fun row col => ?_, fun row => ?_, counted⟩
  · obtain ⟨best, cheapest, least⟩ := SquareMatrix.exists_cheapest (finite row)
    refine ⟨best, cheapest, ?_⟩
    rw [final.row_eq, if_pos (List.mem_finRange row), least]
  · rw [← SquareMatrix.tightCols_eq (finite row)]
    exact greedy row col
  · rw [← SquareMatrix.tightCols_eq (finite row)]
    exact (greedy row).colOf_eq_none_iff

/-- The first column is tight for the first two rows, and the second one for all three: the second
row falls back to it, and the third is left without a column. -/
theorem reduceRows_greedy_fallback :
    let matrix : SquareMatrix Float 3 := ⟨#[2, 2, 9, 3, 3, 3, 7, 4, 8], rfl⟩
    let leftovers := solveSquare ⟨#[7], rfl⟩ .zero (Scratch.nothing.cleared 1) {}
    let workspace : Workspace Float := ⟨1, 1, leftovers.2.scratch⟩
    (∀ row col, isFinite (matrix.get row col) = true) ∧
      ∃ prepared, workspace.prepare 3 = .ok (3, prepared) ∧
        let reduced := (Progress.begin prepared {}).reduceRows matrix
        let matching := reduced.scratch.matching
        IsLeast (matrix.cheapestCols 1 \ matching.heldBefore 1) 1 ∧
          matrix.cheapestCols 2 ⊆ matching.heldBefore 2 ∧
          reduced.tally.metrics.greedyAssignments = 2 := by
  intro matrix leftovers workspace
  have finite : ∀ row col, isFinite (matrix.get row col) = true := by decide +kernel
  have granted : workspace.prepare 3 = .ok (3, workspace.scratch.cleared 3) := rfl
  obtain ⟨_, _, _, claims, unmatched, counted⟩ := reduceRows_greedy finite granted {}
  refine ⟨finite, _, granted, (claims 1 1).mp ?_, (unmatched 2).mp ?_, counted.trans ?_⟩
  · decide +kernel
  · decide +kernel
  · decide +kernel

end LinearAssignment
