import LinearAssignment.Proofs.RescaledMatrix

/-! # Ties go to the lowest column

If all costs of a row are equal, whatever they are, every assignment costs the same, and the answer
is a matter of how ties are broken alone. Such a square is the square of zeros with its rows
shifted, so it is solved in the same course. Over zeros no distance ever exceeds zero and all
potentials stay zero. Each row meets the columns from the lowest on: those of the rows before it are
taken, one after the other, and the next one is its own.
-/

namespace LinearAssignment

open CostNumber (infinity isFinite ofNat)
open ExactCost (finite)

variable {n : Nat}

/-- The lowest index that has not been passed. -/
theorem find?_not_lt {count : Nat} (inside : count < n) :
    (List.finRange n).find? (fun index => !decide (index.val < count)) = some ⟨count, inside⟩ := by
  rw [List.find?_eq_some_iff_getElem]
  refine ⟨by simp, count, by simpa using inside, by simp, fun index below => ?_⟩
  simp [below]

theorem take_succ_finRange {count : Nat} (inside : count < n) :
    (List.finRange n).take (count + 1) = (List.finRange n).take count ++ [⟨count, inside⟩] := by
  rw [List.take_succ_eq_append_getElem (by simpa using inside), List.getElem_finRange]
  rfl

/-! ## The diagonal -/

/-- A matching of the first rows and columns, each row with the column of its own index. -/
structure Matching.Diagonal (matching : Matching n) (count : Nat) : Prop where
  colOf : ∀ row, matching.colOf.get row = if row.val < count then some row else none
  rowOf : ∀ col, matching.rowOf.get col = if col.val < count then some col else none

namespace Matching.Diagonal

variable {matching : Matching n} {count : Nat} {row : Fin n}

theorem empty : (Matching.empty : Matching n).Diagonal 0 where
  colOf := by simp
  rowOf := by simp

/-- The diagonal grows by the pair behind it. -/
theorem assign (diagonal : matching.Diagonal row.val) :
    (matching.assign row row).Diagonal (row.val + 1) where
  colOf other := by
    rw [colOf_assign, diagonal.colOf]
    split_ifs <;> grind
  rowOf other := by
    rw [rowOf_assign, diagonal.rowOf]
    split_ifs <;> grind

/-- A matrix that is at most as high as wide has its rows paired with the columns of their
indices. -/
theorem realPart_eq {permutation : Equiv.Perm (Fin n)}
    (diagonal : (ofPerm permutation).Diagonal n) {rows cols : Nat} (wide : rows ≤ cols)
    (side : n = cols) (row : Fin rows) :
    (Pairing.realPart permutation : Pairing rows cols) row = some (row.castLE wide) := by
  have inside : row.val < n := side ▸ row.isLt.trans_le wide
  have partner := diagonal.colOf ⟨row, inside⟩
  rw [colOf_ofPerm, if_pos inside] at partner
  exact Pairing.realPart_eq_some_iff.mpr ⟨inside, congrArg Fin.val (Option.some.inj partner)⟩

end Matching.Diagonal

/-! ## A square of zeros -/

/-- The square in which every pair is free of charge. -/
def SquareMatrix.zero (n : Nat) : SquareMatrix ExactCost n where
  cells := Array.replicate (n * n) (finite 0)
  size_eq := Array.size_replicate

@[simp] theorem SquareMatrix.get_zero (row col : Fin n) :
    (zero n).get row col = finite 0 := Array.getElem_replicate ..

theorem SquareMatrix.zero_rational : (zero n).Rational := fun row col => by
  rw [get_zero]
  rfl

/-- Potentials that are all zero. -/
structure Potentials.Zero (potentials : Potentials ExactCost n) : Prop where
  row : ∀ row, potentials.row.get row = finite 0
  col : ∀ col, potentials.col.get col = finite 0

namespace Search

variable {potentials : Potentials ExactCost n} {matching : Matching n}
  {search : Search ExactCost n} {origin row : Fin n} {count : Nat}

theorem candidate_zero (zero : potentials.Zero) (row col : Fin n) :
    candidate (.zero n) potentials row (finite 0) col = finite 0 := by
  simp [candidate, zero.row, zero.col]

/-- Every column is known at distance zero from the origin of the search, and those below a count
are settled. -/
structure Swept (origin : Fin n) (count : Nat) (search : Search ExactCost n) : Prop where
  distance : ∀ col, search.distance.get col = finite 0
  predecessor : ∀ col, search.predecessor.get col = some origin
  visited : ∀ col, search.visited.get col = decide (col.val < count)
  size_eq : search.scanned.size = count

/-- The first row reaches all columns. -/
theorem Swept.start (zero : potentials.Zero) :
    ((blank ExactCost n).relax (.zero n) potentials origin (ofNat 0)).Swept origin 0 := by
  have improves (col : Fin n) : (blank ExactCost n).improves
      (candidate (.zero n) potentials origin (finite 0) col) col = true := by
    rw [candidate_zero zero, improves, blank_visited, blank_distance]
    rfl
  rw [ExactCost.ofNat_zero]
  refine ⟨fun col => ?_, fun col => ?_, fun col => ?_, rfl⟩
  · rw [relax_distance, if_pos (improves col), candidate_zero zero]
  · rw [relax_predecessor, if_pos (improves col)]
  · rw [relax_visited, blank_visited]
    simp

/-- No row behind a settled column leads anywhere faster: a tie replaces nothing. -/
theorem Swept.relax (swept : search.Swept origin count) (zero : potentials.Zero) (row : Fin n) :
    (search.relax (.zero n) potentials row (finite 0)).Swept origin count := by
  have improves (col : Fin n) : search.improves
      (candidate (.zero n) potentials row (finite 0) col) col = false := by
    rw [candidate_zero zero, improves, swept.distance]
    simp
  refine ⟨fun col => ?_, fun col => ?_, fun col => ?_, ?_⟩
  · rw [relax_distance, if_neg (by simp [improves]), swept.distance]
  · rw [relax_predecessor, if_neg (by simp [improves]), swept.predecessor]
  · rw [relax_visited, swept.visited]
  · rw [relax_scanned, swept.size_eq]

/-- The nearest column is the lowest one that is not settled. -/
theorem Swept.nearest? (swept : search.Swept origin count) (inside : count < n) :
    search.nearest? = some ⟨count, inside⟩ := by
  have kept (cols : List (Fin n)) (best : Fin n) :
      cols.foldl search.nearer (some best) = some best := by
    induction cols with
    | nil => rfl
    | cons col rest ih => simpa [nearer, swept.distance] using ih
  have first (cols : List (Fin n)) : cols.foldl search.nearer none =
      cols.find? (fun col => !decide (col.val < count)) := by
    induction cols with
    | nil => rfl
    | cons col rest ih =>
      have taken : search.nearer none col =
          if !decide (col.val < count) then some col else none := by
        simp [nearer, swept.visited, swept.distance, ExactCost.infinity_eq]
      rw [List.foldl_cons, List.find?_cons, taken]
      cases !decide (col.val < count) with
      | true => exact kept rest col
      | false => exact ih
  rw [Search.nearest?, first, find?_not_lt inside]

/-- Settling that column. -/
theorem Swept.settle (swept : search.Swept origin count) (inside : count < n) :
    (search.settle ⟨count, inside⟩).Swept origin (count + 1) where
  distance := swept.distance
  predecessor := swept.predecessor
  visited col := by
    rw [Bool.eq_iff_iff, settle_visited, swept.visited, Fin.ext_iff]
    simp only [decide_eq_true_eq]
    omega
  size_eq := by rw [settle_scanned, Array.size_push, swept.size_eq]

/-- A round settles the lowest column that is left and goes on from its row, if it has one. -/
theorem Swept.explore_succ (swept : (search.relax (.zero n) potentials row (finite 0)).Swept origin
    count) (matching : Matching n) (inside : count < n) (unsettled : Nat) :
    ∃ next, next.Swept origin (count + 1) ∧
      explore (.zero n) potentials matching (unsettled + 1) search row (finite 0) =
        match matching.rowOf.get ⟨count, inside⟩ with
        | none => (next, some ⟨count, inside⟩)
        | some owner => explore (.zero n) potentials matching unsettled next owner (finite 0) := by
  refine ⟨_, swept.settle inside, ?_⟩
  have rational : isFinite (finite 0) = true := rfl
  rw [explore]
  cases owned : matching.rowOf.get ⟨count, inside⟩ <;>
    simp only [swept.nearest? inside, settle_distance, swept.distance, rational, if_true, owned]

/-- A search over zeros goes down the diagonal and ends at the first column behind it. -/
theorem Swept.explore (zero : potentials.Zero) (diagonal : matching.Diagonal origin.val)
    {steps unsettled : Nat} (sum : count + steps = origin.val) (enough : steps < unsettled)
    (swept : (search.relax (.zero n) potentials row (finite 0)).Swept origin count) :
    ∃ final, explore (.zero n) potentials matching unsettled search row (finite 0) =
        (final, some origin) ∧ final.Swept origin (origin.val + 1) := by
  induction steps generalizing count search row unsettled with
  | zero =>
    obtain ⟨left, rfl⟩ : ∃ left, unsettled = left + 1 := ⟨unsettled - 1, by omega⟩
    obtain ⟨final, settled, round⟩ := swept.explore_succ matching (by omega) left
    obtain rfl : count = origin.val := sum
    rw [diagonal.rowOf, if_neg (lt_irrefl _)] at round
    exact ⟨final, round, settled⟩
  | succ steps ih =>
    obtain ⟨left, rfl⟩ : ∃ left, unsettled = left + 1 := ⟨unsettled - 1, by omega⟩
    obtain ⟨next, settled, round⟩ := swept.explore_succ matching (by omega) left
    rw [diagonal.rowOf, if_pos (by simp; omega)] at round
    rw [round]
    exact ih (by omega) (by omega) (settled.relax zero _)

/-- The search of the first row behind the diagonal. -/
theorem exists_fromRow_zero (zero : potentials.Zero) (diagonal : matching.Diagonal origin.val)
    (scratch : Search ExactCost n) :
    ∃ final, fromRow (.zero n) potentials matching scratch origin = (final, some origin) ∧
      final.Swept origin (origin.val + 1) := by
  rw [fromRow, reset_eq]
  exact (Swept.start zero).explore zero diagonal (Nat.zero_add _) origin.isLt

/-- The path is the pair of the row and its column. -/
theorem Swept.path_eq (swept : search.Swept origin count) (some : 0 < count)
    (matching : Matching n) :
    search.path matching origin origin = [(origin, origin)] := by
  obtain ⟨left, rfl⟩ : ∃ left, count = left + 1 := ⟨count - 1, by omega⟩
  rw [path, swept.size_eq, pathBack, swept.predecessor]
  simp

/-- All paths have length zero, so that no potential is shifted. -/
theorem Swept.shifted (swept : search.Swept origin count) (zero : potentials.Zero)
    (matching : Matching n) (sink : Fin n) :
    (potentials.shifted search matching origin sink).Zero where
  row row := by
    rw [Potentials.shifted_row]
    simp only [slack, swept.distance, zero.row]
    split_ifs with same
    · simp
    · cases matching.colOf.get row <;> simp
  col col := by
    rw [Potentials.shifted_col]
    simp [slack, swept.distance, zero.col]

end Search

/-! ## Solving a square of zeros -/

namespace Progress

variable {progress : Progress ExactCost n} {row : Fin n} {count : Nat}

/-- A solve from zero potentials that has matched the first rows with the columns of their
indices. -/
structure Stepped (count : Nat) (progress : Progress ExactCost n) : Prop where
  potentials : progress.scratch.potentials.Zero
  matching : progress.scratch.matching.Diagonal count
  columnsScanned : 2 * progress.tally.metrics.columnsScanned = count * (count + 1)

/-- The next row is matched with the column of its index, after all columns up to there. -/
theorem Stepped.augment (stepped : progress.Stepped row.val) :
    ∃ next, progress.augment (.zero n) row = (true, next) ∧ next.Stepped (row.val + 1) := by
  obtain ⟨search, found, swept⟩ := Search.exists_fromRow_zero stepped.potentials stepped.matching
    progress.scratch.search
  have path := swept.path_eq row.val.succ_pos progress.scratch.matching
  refine ⟨_, augment_of_found found, swept.shifted stepped.potentials _ row, ?_, ?_⟩
  · simp only [afterPath, path, Matching.assignAll_cons, Matching.assignAll_nil]
    exact stepped.matching.assign
  · have before := stepped.columnsScanned
    simp only [afterPath, Tally.countAugmentation, Tally.countScans, swept.size_eq]
    linarith

/-- The first rows of a square of zeros are matched along the diagonal. -/
theorem Stepped.augmentAll_take (stepped : progress.Stepped 0) (few : count ≤ n) :
    ∃ next, augmentAll (.zero n) ((List.finRange n).take count) progress = (none, next) ∧
      next.Stepped count := by
  induction count with
  | zero => exact ⟨progress, rfl, stepped⟩
  | succ count ih =>
    obtain ⟨next, reached, stepped'⟩ := ih (by omega)
    obtain ⟨last, outcome, stepped''⟩ :=
      Stepped.augment (show next.Stepped (⟨count, few⟩ : Fin n).val from stepped')
    have free : next.scratch.matching.isFreeRow ⟨count, few⟩ = true := by
      rw [Matching.isFreeRow_iff, stepped'.matching.colOf, if_neg (lt_irrefl _)]
    refine ⟨last, ?_, stepped''⟩
    rw [take_succ_finRange few, augmentAll_append _ reached, augmentAll]
    simp [free, outcome, augmentAll]

/-- A reduced row of zeros claims the lowest column that is left. -/
theorem reduceRow_zero (row : Fin n) (diagonal : progress.scratch.matching.Diagonal row.val) :
    (progress.reduceRow (.zero n) row).scratch.matching.Diagonal (row.val + 1) ∧
      (progress.reduceRow (.zero n) row).tally = progress.tally.countGreedy := by
  obtain ⟨best, minimum, _⟩ := exists_rowMinimum SquareMatrix.zero_rational row
  have claimed : progress.scratch.matching.tightColumn? (.zero n) row = some row := by
    have tests (col : Fin n) : ((SquareMatrix.zero n).get row col ==
        (SquareMatrix.zero n).rowMinimum row && progress.scratch.matching.isFreeCol col) =
          !decide (col.val < row.val) := by
      have tight : (finite 0 == finite 0) = true := rfl
      rw [minimum, SquareMatrix.get_zero, SquareMatrix.get_zero, tight, Bool.true_and,
        Matching.isFreeCol, diagonal.rowOf]
      split_ifs with below <;> simp [below]
    simp only [Matching.tightColumn?, tests]
    exact find?_not_lt row.isLt
  simp only [reduceRow, claimed]
  exact ⟨diagonal.assign, trivial⟩

/-- The first rows of a square of zeros claim the diagonal. -/
theorem reduceRows_zero_take (progress : Progress ExactCost n)
    (diagonal : progress.scratch.matching.Diagonal 0) (few : count ≤ n) :
    (((List.finRange n).take count).foldl (reduceRow (.zero n)) progress).scratch.matching.Diagonal
        count ∧
      (((List.finRange n).take count).foldl (reduceRow (.zero n)) progress).tally =
        { progress.tally with
          metrics.greedyAssignments := progress.tally.metrics.greedyAssignments + count } := by
  induction count with
  | zero => exact ⟨diagonal, rfl⟩
  | succ count ih =>
    obtain ⟨diagonal', tally⟩ := ih (by omega)
    obtain ⟨diagonal'', tally'⟩ := reduceRow_zero ⟨count, few⟩ diagonal'
    rw [take_succ_finRange few, List.foldl_append, List.foldl_cons, List.foldl_nil]
    refine ⟨diagonal'', tally'.trans ?_⟩
    rw [tally]
    rfl

/-- Where no row is open, nothing is searched. -/
theorem augmentAll_eq_self {κ : Type} [CostNumber κ] {matrix : SquareMatrix κ n}
    {progress : Progress κ n} (rows : List (Fin n))
    (complete : ∀ row, progress.scratch.matching.colOf.get row ≠ none) :
    augmentAll matrix rows progress = (none, progress) := by
  induction rows with
  | nil => rfl
  | cons row rest ih => rw [augmentAll, if_neg (mt Matching.isFreeRow_iff.mp (complete row)), ih]

/-- How a solve ends that matches the whole diagonal: the start from row minima has claimed it
without a search, or else each search has passed the columns of all rows before its own. -/
structure EndsDiagonal {κ : Type} (initialization : DualStart) (final : Progress κ n) : Prop where
  matching : final.scratch.matching.Diagonal n
  claimed : initialization = .rowReduction →
    final.tally.metrics.greedyAssignments = n ∧ final.tally.metrics.columnsScanned = 0
  searched : initialization = .zero →
    2 * final.tally.metrics.columnsScanned = n * (n + 1)

end Progress

/-- Zeros are solved by the diagonal. -/
theorem exists_solveSquare_zero {m : Nat} (initialization : DualStart)
    (scratch : Scratch ExactCost m) :
    ∃ final, solveSquare (.zero n) initialization (scratch.cleared n) {} = (none, final) ∧
      final.EndsDiagonal initialization := by
  have all : (List.finRange n).take n = List.finRange n := List.take_of_length_le (by simp)
  cases initialization with
  | zero =>
    have start : (Progress.begin (scratch.cleared n) {}).Stepped 0 :=
      ⟨⟨scratch.cleared_row, scratch.cleared_col⟩, .empty, rfl⟩
    obtain ⟨final, solved, stepped⟩ := start.augmentAll_take le_rfl
    rw [all] at solved
    exact ⟨final, solved, stepped.matching, by simp, fun _ => stepped.columnsScanned⟩
  | rowReduction =>
    obtain ⟨diagonal, tally⟩ := Progress.reduceRows_zero_take
      (Progress.begin (scratch.cleared n) {}) .empty (le_refl n)
    rw [all] at diagonal tally
    refine ⟨_, Progress.augmentAll_eq_self _ fun row => ?_, diagonal, fun _ => ?_, by simp⟩
    · intro isOpen
      have matched := (diagonal.colOf row).symm.trans isOpen
      rw [if_pos row.isLt] at matched
      cases matched
    · exact ⟨(congrArg (·.metrics.greedyAssignments) tally).trans (Nat.zero_add n),
        congrArg (·.metrics.columnsScanned) tally⟩

/-! ## Squares with constant rows -/

/-- A square with constant rows is solved as one of zeros. -/
theorem exists_solveSquare_constant {m : Nat} {matrix : SquareMatrix ExactCost n}
    {price : Fin n → ℚ} (constant : ∀ row col, matrix.get row col = finite (price row))
    (initialization : DualStart) (scratch : Scratch ExactCost m) :
    ∃ final, solveSquare matrix initialization (scratch.cleared n) {} = (none, final) ∧
      final.EndsDiagonal initialization := by
  have rescales : (SquareMatrix.zero n).Rescales matrix 1 price := by
    intro row col
    rw [constant, SquareMatrix.get_zero, ExactCost.rescale_finite, mul_zero, zero_add]
  obtain ⟨final, final', solved, solved', abreast⟩ := exists_solveSquare_rescaled one_pos
    SquareMatrix.zero_rational rescales initialization scratch scratch {}
  obtain ⟨known, solved'', diagonal, claimed, searched⟩ :=
    exists_solveSquare_zero initialization scratch
  cases solved.symm.trans solved''
  rw [← abreast.matching_eq] at diagonal
  rw [← abreast.tally_eq] at claimed searched
  exact ⟨final', solved', diagonal, claimed, searched⟩

variable {cost : CostMatrix ExactCost} {options : Options ExactCost}

/-- A wide matrix with constant rows has a square with constant rows: filled ones hold nothing but
the sentinel. -/
theorem SquareProblem.exists_ofCost_constant {price : Fin cost.rows → ℚ}
    (constant : ∀ row col, cost.get row col = finite (price row)) (wide : cost.rows ≤ cost.cols)
    (shape : cost.isSquare = true ∨ options.extendCost = true)
    (unlimited : options.costLimit = .top)
    (space : cost.isSquare = true ∨
      (room cost.dimension : Except (Refusal ExactCost) Unit) = .ok ()) :
    ∃ (problem : SquareProblem ExactCost) (prices : Fin problem.dimension → ℚ),
      ofCost cost options = .ok problem ∧ problem.dimension = cost.cols ∧
      ∀ row col, problem.matrix.get row col = finite (prices row) := by
  obtain ⟨asIs, filledUp⟩ := ofCost_unlimited shape unlimited
  by_cases square : cost.rows = cost.cols
  · refine ⟨_, price, asIs square, square, fun row col => ?_⟩
    exact (get_asItIs cost square row col).trans (constant row _)
  · have room := space.resolve_left fun isSquare => square (eq_of_beq isSquare)
    refine ⟨_, fun row => if inside : row.val < cost.rows then price ⟨row, inside⟩
      else (cost.sentinelCost .top).value, filledUp square room, max_eq_right wide,
      fun row col => ?_⟩
    dsimp only
    split_ifs with inside
    · exact (get_padded_of_lt cost wide _ inside col).trans (constant ..)
    · exact (get_padded_of_le cost _ (not_lt.mp inside) col).trans
        (ExactCost.eq_finite_value (isFinite_sentinel_of_le cost (not_lt.mp inside)))

/-- Where no row prefers a column to another, every row gets the column of its own index. The start
from row minima claims all of them; from zero potentials each search passes the columns of all rows
before its own. The square has to fit into memory. -/
theorem solve_constantRows {price : Fin cost.rows → ℚ}
    (constant : ∀ row col, cost.get row col = finite (price row)) (wide : cost.rows ≤ cost.cols)
    (shape : cost.isSquare = true ∨ options.extendCost = true)
    (unlimited : options.costLimit = .top)
    (space : cost.isSquare = true ∨
      (SquareProblem.room cost.dimension : Except (Refusal ExactCost) Unit) = .ok ()) :
    ∃ answer, solve cost options = .ok answer ∧
      answer.rowToCol = (List.range cost.rows).map some ∧
      (options.initialization = .rowReduction →
        answer.metrics.greedyAssignments = cost.cols ∧ answer.metrics.columnsScanned = 0) ∧
      (options.initialization = .zero →
        answer.metrics.columnsScanned = cost.cols * (cost.cols + 1) / 2) := by
  obtain ⟨problem, prices, made, side, constant'⟩ :=
    SquareProblem.exists_ofCost_constant constant wide shape unlimited space
  obtain ⟨final, solved, diagonal, claimed, searched⟩ :=
    exists_solveSquare_constant constant' options.initialization (Scratch.nothing : Scratch _ 0)
  obtain ⟨permutation, matched⟩ := exists_perm_of_solveSquare solved
  obtain ⟨answer, success, records, _, metrics⟩ :=
    exists_solve_unlimited unlimited made solved matched
  rw [← metrics, side] at claimed searched
  refine ⟨answer, success, ?_, claimed, fun isZero => ?_⟩
  · rw [matched] at diagonal
    rw [records.rowToCol_eq, List.ofFn_eq_map, ← List.map_coe_finRange_eq_range, List.map_map]
    refine List.map_congr_left fun row _ => ?_
    rw [diagonal.realPart_eq wide side]
    rfl
  · have scanned := searched isZero
    omega

/-- Two rows of three columns, both from zero potentials. -/
theorem solve_constantRows_wide :
    let cost : CostMatrix ExactCost :=
      ⟨2, 3, #[finite 4, finite 4, finite 4, finite (-7), finite (-7), finite (-7)], by decide,
        by decide, rfl, by decide, by decide⟩
    let options : Options ExactCost := { extendCost := true, initialization := .zero }
    ∃ answer, solve cost options = .ok answer ∧ answer.rowToCol = [some 0, some 1] ∧
      answer.metrics.columnsScanned = 6 := by
  intro cost options
  have constant : ∀ row col, cost.get row col = finite (if row.val = 0 then 4 else -7) := by
    decide
  have shape : cost.isSquare = true ∨ options.extendCost = true := .inr rfl
  obtain ⟨answer, success, rows, _, scanned⟩ :=
    solve_constantRows constant (by decide) shape rfl (.inr rfl)
  exact ⟨answer, success, rows, (scanned rfl).trans (by decide)⟩

end LinearAssignment
