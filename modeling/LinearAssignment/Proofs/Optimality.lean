import LinearAssignment.Proofs.Augmentation
import LinearAssignment.Proofs.Potentials
import LinearAssignment.Proofs.SquareSolution
import Mathlib.Algebra.Order.BigOperators.Group.Finset

/-! # Solved squares are optimal

In exact arithmetic potentials price the matching throughout a solve: matched pairs are tight, and
no pair of a matched row has a negative reduced cost. Rows that are still free may have some, as the
zero start leaves them with negative costs. Both starts establish this, every augmentation keeps it,
and at the end, when all rows are matched, it makes the permutation one of least cost.
-/

namespace LinearAssignment

open CostNumber (isFinite ofNat)
open ExactCost (finite)

variable {m n : Nat} {matrix : SquareMatrix ExactCost n} {potentials : Potentials ExactCost n}
  {matching : Matching n} {progress : Progress ExactCost n} {row : Fin n}

/-- Potentials that price a matching. -/
structure Priced (matrix : SquareMatrix ExactCost n) (potentials : Potentials ExactCost n)
    (matching : Matching n) : Prop where
  rational : potentials.Rational
  consistent : matching.Consistent
  feasible : ∀ row col, matching.colOf.get row ≠ none → 0 ≤ reduced matrix potentials row col
  tight : ∀ row col, matching.colOf.get row = some col → reduced matrix potentials row col = 0
  col_nonpos : ∀ col, (potentials.col.get col).value ≤ 0
  col_free : ∀ col, matching.rowOf.get col = none → (potentials.col.get col).value = 0

/-! ## Duality -/

/-- Any pairs cost what their reduced costs exceed the potentials by. -/
theorem sum_value_of_pairs {ι : Type} [Fintype ι] (matrix : SquareMatrix ExactCost n)
    (potentials : Potentials ExactCost n) (row col : ι → Fin n) :
    ∑ pair, (matrix.get (row pair) (col pair)).value =
      ∑ pair, reduced matrix potentials (row pair) (col pair) +
        (∑ pair, (potentials.row.get (row pair)).value +
          ∑ pair, (potentials.col.get (col pair)).value) := by
  rw [← Finset.sum_add_distrib, ← Finset.sum_add_distrib]
  refine Finset.sum_congr rfl fun pair _ => ?_
  rw [reduced]
  ring

/-- A permutation meets the potential of every column once. -/
theorem sum_value_eq (matrix : SquareMatrix ExactCost n) (potentials : Potentials ExactCost n)
    (permutation : Equiv.Perm (Fin n)) :
    ∑ row, (matrix.get row (permutation row)).value =
      ∑ row, reduced matrix potentials row (permutation row) +
        (∑ row, (potentials.row.get row).value + ∑ col, (potentials.col.get col).value) := by
  rw [← Equiv.sum_comp permutation fun col => (potentials.col.get col).value]
  exact sum_value_of_pairs matrix potentials id permutation

/-- A priced permutation costs as much as the potentials are worth. -/
theorem Priced.sum_value_eq_potentials {permutation : Equiv.Perm (Fin n)}
    (priced : Priced matrix potentials (.ofPerm permutation)) :
    ∑ row, (matrix.get row (permutation row)).value =
      ∑ row, (potentials.row.get row).value + ∑ col, (potentials.col.get col).value := by
  rw [sum_value_eq matrix potentials permutation,
    Finset.sum_eq_zero fun row _ => priced.tight row _ (Matching.colOf_ofPerm permutation row),
    zero_add]

/-- Where potentials are feasible, and tight for a permutation, up to a tolerance, no permutation
costs less by more than two tolerances for every row. -/
theorem sum_value_le_of_within {permutation : Equiv.Perm (Fin n)} (tolerance : ℚ)
    (tight : ∀ row, reduced matrix potentials row (permutation row) ≤ tolerance)
    (feasible : ∀ row col, -tolerance ≤ reduced matrix potentials row col)
    (other : Equiv.Perm (Fin n)) :
    ∑ row, (matrix.get row (permutation row)).value ≤
      ∑ row, (matrix.get row (other row)).value + 2 * n * tolerance := by
  have upper : ∑ row, reduced matrix potentials row (permutation row) ≤ n * tolerance :=
    calc ∑ row, reduced matrix potentials row (permutation row)
        ≤ ∑ _row : Fin n, tolerance := Finset.sum_le_sum fun row _ => tight row
      _ = n * tolerance := by simp
  have lower : -(n * tolerance) ≤ ∑ row, reduced matrix potentials row (other row) :=
    calc -(n * tolerance) = ∑ _row : Fin n, -tolerance := by simp
      _ ≤ ∑ row, reduced matrix potentials row (other row) :=
        Finset.sum_le_sum fun row _ => feasible row (other row)
  rw [sum_value_eq matrix potentials permutation, sum_value_eq matrix potentials other]
  linarith

/-- No permutation costs less than a priced one. -/
theorem Priced.sum_value_le {permutation : Equiv.Perm (Fin n)}
    (priced : Priced matrix potentials (.ofPerm permutation)) (other : Equiv.Perm (Fin n)) :
    ∑ row, (matrix.get row (permutation row)).value ≤
      ∑ row, (matrix.get row (other row)).value := by
  have within := sum_value_le_of_within 0
    (fun row => (priced.tight row _ (Matching.colOf_ofPerm permutation row)).le)
    (fun row col => by
      rw [neg_zero]
      exact priced.feasible row col (by simp)) other
  rwa [mul_zero, add_zero] at within

/-! ## Augmentations keep the matching priced -/

/-- A search on a priced matching ends at a free column. -/
theorem Priced.exists_ended (priced : Priced matrix potentials matching)
    (rational : matrix.Rational) (free : matching.colOf.get row = none)
    (scratch : Search ExactCost n) :
    ∃ search sink length,
      Search.fromRow matrix potentials matching scratch row = (search, some sink) ∧
        search.Ended matrix potentials matching row sink length := by
  obtain ⟨search, sink, length, found, distance, measured⟩ := Search.exists_fromRow rational
    priced.rational priced.consistent free priced.feasible scratch
  obtain ⟨_, visited, freeSink, _⟩ := Search.fromRow_found priced.consistent found
  exact ⟨search, sink, length, found, measured, distance, visited, free, freeSink,
    priced.consistent, priced.rational⟩

/-- Shifted potentials price the exchanged pairs. -/
theorem Priced.shifted {search : Search ExactCost n} {sink : Fin n} {length : ℚ}
    {scratch : Search ExactCost n} (priced : Priced matrix potentials matching)
    (found : Search.fromRow matrix potentials matching scratch row = (search, some sink))
    (ended : search.Ended matrix potentials matching row sink length) :
    Priced matrix (potentials.shifted search matching row sink)
      (matching.assignAll (search.path matching row sink)) := by
  have grows := Matching.grows_assignAll_path priced.consistent ended.free found
  obtain ⟨traced, _⟩ := Search.fromRow_found priced.consistent found
  have path := traced.pathTo_path ended.visited
  refine ⟨ended.rational_shifted, grows.consistent, fun other col matched => ?_,
    fun other col paired => ?_, fun col => ?_, fun col free => ?_⟩
  · refine ended.reduced_shifted_nonneg ?_ col
    by_cases isOrigin : other = row
    · exact .inl isOrigin
    · have before : matching.colOf.get other ≠ none := fun free =>
        matched ((grows.colOf_eq_none_iff other).mpr ⟨free, isOrigin⟩)
      exact .inr fun col => priced.feasible other col before
  · rcases Matching.mem_or_colOf_of_assignAll paired with member | owned
    · obtain ⟨visited, predecessor⟩ := path.settled member
      exact ended.reduced_shifted_of_edge visited predecessor
    · rw [ended.reduced_shifted_of_owned owned]
      exact priced.tight other col owned
  · exact (ended.shifted_col_le col).trans (priced.col_nonpos col)
  · obtain ⟨freeBefore, notSink⟩ := (grows.rowOf_eq_none_iff col).mp free
    have unsettled : search.visited.get col = false := by
      by_contra visited
      obtain ⟨_, _, _, matched⟩ := Search.fromRow_found priced.consistent found
      rcases matched col (by simpa using visited) with isSink | owned
      · exact notSink isSink
      · exact owned freeBefore
    rw [potentials.shifted_col_of_unvisited search unsettled]
    exact priced.col_free col freeBefore

namespace Progress

/-- The matching of a solve under way is priced by its potentials. -/
def IsPriced (progress : Progress ExactCost n) (matrix : SquareMatrix ExactCost n) : Prop :=
  Priced matrix progress.scratch.potentials progress.scratch.matching

/-- An augmentation always finds a path, and keeps the matching priced. -/
theorem IsPriced.augment (priced : progress.IsPriced matrix) (rational : matrix.Rational)
    (free : progress.scratch.matching.colOf.get row = none) :
    ∃ next, progress.augment matrix row = (true, next) ∧ next.IsPriced matrix := by
  obtain ⟨search, sink, length, found, ended⟩ :=
    priced.exists_ended rational free progress.scratch.search
  exact ⟨_, augment_of_found found, priced.shifted found ended⟩

/-- No row is stranded. -/
theorem IsPriced.augmentAll (rational : matrix.Rational) (rows : List (Fin n))
    (priced : progress.IsPriced matrix) :
    ∃ final, augmentAll matrix rows progress = (none, final) ∧ final.IsPriced matrix :=
  augmentAll_of_step (fun priced free => IsPriced.augment priced rational free) rows priced

/-! ## Both starts price their matching -/

/-- The smallest cost of a row is that of one of its columns. -/
theorem exists_rowMinimum (rational : matrix.Rational) (row : Fin n) :
    ∃ best, matrix.rowMinimum row = matrix.get row best ∧
      ∀ col, (matrix.get row best).value ≤ (matrix.get row col).value := by
  have costs : matrix.row row =
      ((List.finRange n).map fun col => (matrix.get row col).value).map finite := by
    rw [SquareMatrix.row, List.map_map]
    exact List.map_congr_left fun col _ => ExactCost.eq_finite_value (rational row col)
  obtain ⟨least, member, minimum, bound⟩ := ExactCost.minimum_finite
    ((List.finRange n).map fun col => (matrix.get row col).value)
    (List.ne_nil_of_mem (List.mem_map_of_mem (List.mem_finRange row)))
  obtain ⟨best, _, rfl⟩ := List.mem_map.mp member
  refine ⟨best, ?_, fun col => bound _ (List.mem_map_of_mem (List.mem_finRange col))⟩
  rw [SquareMatrix.rowMinimum, costs, minimum, ExactCost.eq_finite_value (rational row best),
    ExactCost.value_finite]

/-- No pair of a reduced row has a negative reduced cost. -/
theorem Reduced.reduced_nonneg {done : List (Fin n)} (reduced : progress.Reduced matrix done)
    (rational : matrix.Rational) (member : row ∈ done) (col : Fin n) :
    0 ≤ LinearAssignment.reduced matrix progress.scratch.potentials row col := by
  obtain ⟨best, minimum, bound⟩ := exists_rowMinimum rational row
  rw [LinearAssignment.reduced, reduced.row_eq, reduced.col_eq, if_pos member, minimum,
    ExactCost.ofNat_zero, ExactCost.value_finite]
  linarith [bound col]

/-- Reduced rows are priced by their smallest costs. -/
theorem Reduced.isPriced {done : List (Fin n)} (reduced : progress.Reduced matrix done)
    (rational : matrix.Rational) : progress.IsPriced matrix := by
  have col_eq : ∀ col, (progress.scratch.potentials.col.get col).value = 0 := fun col => by
    rw [reduced.col_eq, ExactCost.ofNat_zero, ExactCost.value_finite]
  refine ⟨⟨fun row => ?_, fun col => ?_⟩, reduced.consistent, fun row col matched => ?_,
    fun row col paired => ?_, fun col => (col_eq col).le, fun col _ => col_eq col⟩
  · obtain ⟨best, minimum, _⟩ := exists_rowMinimum rational row
    rw [reduced.row_eq, minimum]
    split_ifs
    · exact rational row best
    · rfl
  · rw [reduced.col_eq]
    rfl
  · obtain ⟨col', paired⟩ := Option.ne_none_iff_exists'.mp matched
    exact reduced.reduced_nonneg rational (reduced.tight row col' paired).1 col
  · obtain ⟨member, tight⟩ := reduced.tight row col paired
    have same : matrix.get row col = matrix.rowMinimum row := of_decide_eq_true tight
    rw [LinearAssignment.reduced, col_eq, reduced.row_eq, if_pos member, same]
    ring

end Progress

/-- A solved square is matched by a permutation that its potentials price. -/
theorem exists_priced_of_solveSquare (rational : matrix.Rational) (initialization : DualStart)
    (scratch : Scratch ExactCost m) (tally : Tally) :
    ∃ (final : Progress ExactCost n) (permutation : Equiv.Perm (Fin n)),
      solveSquare matrix initialization (scratch.cleared n) tally = (none, final) ∧
        final.scratch.matching = .ofPerm permutation ∧
        Priced matrix final.scratch.potentials (.ofPerm permutation) := by
  have start := Progress.Reduced.startAt matrix initialization scratch tally
  obtain ⟨final, solved, priced⟩ :=
    (start.isPriced rational).augmentAll rational (List.finRange n)
  obtain ⟨permutation, matched⟩ := exists_perm_of_solveSquare solved
  rw [Progress.IsPriced, matched] at priced
  exact ⟨final, permutation, solved, matched, priced⟩

/-- In exact arithmetic a square is always solved, on any scratch memory and from either start, and
by a permutation of least cost. -/
theorem solveSquare_optimal (rational : matrix.Rational) (initialization : DualStart)
    {workspace : Workspace ExactCost} {capacity : Nat} {scratch : Scratch ExactCost n}
    (prepared : workspace.prepare n = .ok (capacity, scratch)) (tally : Tally) :
    ∃ (final : Progress ExactCost n) (permutation : Equiv.Perm (Fin n)),
      solveSquare matrix initialization scratch tally = (none, final) ∧
        final.scratch.matching = .ofPerm permutation ∧
        ∀ other : Equiv.Perm (Fin n), ∑ row, (matrix.get row (permutation row)).value ≤
          ∑ row, (matrix.get row (other row)).value := by
  have cleared : scratch = workspace.scratch.cleared n := by
    rw [Workspace.prepare] at prepared
    cases room : reserve workspace.capacity n with
    | error cause => simp [room, bind, Except.bind] at prepared
    | ok capacity' =>
      simp only [room, bind, Except.bind, pure, Except.pure, Except.ok.injEq,
        Prod.mk.injEq] at prepared
      exact prepared.2.symm
  obtain ⟨final, permutation, solved, matched, priced⟩ :=
    exists_priced_of_solveSquare rational initialization workspace.scratch tally
  exact ⟨final, permutation, cleared ▸ solved, matched, priced.sum_value_le⟩

/-- Costs of both signs, solved in memory that a smaller square has left behind. -/
theorem solveSquare_optimal_of_leftovers :
    let matrix : SquareMatrix ExactCost 2 :=
      ⟨#[finite (-3), finite 1, finite (-5), finite (1 / 2)], rfl⟩
    let leftovers := solveSquare ⟨#[finite 7], rfl⟩ .zero (Scratch.nothing.cleared 1) {}
    let workspace : Workspace ExactCost := ⟨1, 1, leftovers.2.scratch⟩
    matrix.Rational ∧ ∃ scratch, workspace.prepare 2 = .ok (2, scratch) ∧
      ∃ (final : Progress ExactCost 2) (permutation : Equiv.Perm (Fin 2)),
        solveSquare matrix .zero scratch {} = (none, final) ∧
          final.scratch.matching = .ofPerm permutation ∧
          ∀ other : Equiv.Perm (Fin 2), ∑ row, (matrix.get row (permutation row)).value ≤
            ∑ row, (matrix.get row (other row)).value := by
  intro matrix leftovers workspace
  have rational : matrix.Rational := by
    unfold SquareMatrix.Rational
    decide
  have prepared : workspace.prepare 2 = .ok (2, workspace.scratch.cleared 2) := rfl
  exact ⟨rational, _, prepared, solveSquare_optimal rational .zero prepared {}⟩

end LinearAssignment
