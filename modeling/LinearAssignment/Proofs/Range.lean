import LinearAssignment.Proofs.Augmentation
import LinearAssignment.Proofs.Potentials
import LinearAssignment.Proofs.Search.Bounded
import LinearAssignment.Proofs.SquareSolution

/-! # Solves that stay in range

An augmentation keeps the potentials moderate: it leaves the pairs of its path tight up to a few
errors, and adds two errors to the slack of the others. So all potentials and distances of a solve
stay in a range that the costs and the side of the square determine, and no row is stranded there.
-/

namespace LinearAssignment

open CostNumber (isFinite ofNat)
open RoundedCost (value range error)

variable {κ : Type} [CostNumber κ] [RoundedCost κ] {n : Nat} {matrix : SquareMatrix κ n}
  {potentials : Potentials κ n} {matching : Matching n} {final : Search κ n}
  {origin sink row col : Fin n} {size slack height spread : ℚ}

namespace Search

omit [CostNumber κ] [RoundedCost κ] in
/-- A search comes to no free row but the one where it began. -/
theorem not_reaches_of_free (free : matching.colOf.get row = none) (notOrigin : row ≠ origin) :
    ¬ final.Reaches matching origin row := by
  rintro (isOrigin | ⟨col, _, owned⟩)
  · exact notOrigin isOrigin
  · rw [free] at owned
    contradiction

/-- A search that has ended at a free column, with a label for every column. -/
structure Completed (final : Search κ n) (matrix : SquareMatrix κ n)
    (potentials : Potentials κ n) (matching : Matching n) (origin sink : Fin n)
    (size slack height spread : ℚ) : Prop where
  costs : matrix.Moderate size
  prices : potentials.Moderate matrix matching size slack height
  label : ∀ col, final.Label matrix potentials matching origin spread col
  visited : final.visited.get sink = true
  matched : ∀ col, final.visited.get col = true → col = sink ∨ matching.rowOf.get col ≠ none
  free : matching.colOf.get origin = none
  freeSink : matching.rowOf.get sink = none
  consistent : matching.Consistent
  nonneg : 0 ≤ slack
  reach_le : size + slack + error κ ≤ spread
  height_le : 2 * spread + 2 * error κ ≤ height
  room : 2 * spread + height < range κ

namespace Completed

variable (completed : final.Completed matrix potentials matching origin sink size slack height
  spread)

include completed

theorem abs_sink_le : |value (final.distance.get sink)| ≤ spread := by
  have bound := (completed.label sink).abs_add_le
  rwa [completed.prices.free_col sink completed.freeSink, add_zero] at bound

/-- What a settled column lies below the end of the path. -/
theorem near_slack (col : Fin n) :
    Near (final.slack sink col)
      (value (final.distance.get sink) - value (final.distance.get col)) (error κ) := by
  obtain ⟨sinkLow, sinkHigh⟩ := abs_le.mp completed.abs_sink_le
  obtain ⟨low, high⟩ := abs_le.mp (completed.label col).abs_add_le
  obtain ⟨priceLow, priceHigh⟩ := abs_le.mp (completed.prices.abs_col col)
  have near := (Near.self (completed.label sink).finite).sub
    (Near.self (completed.label col).finite) (by
      have inside : |value (final.distance.get sink) - value (final.distance.get col)| ≤
          2 * spread + height := abs_le.mpr ⟨by linarith, by linarith⟩
      linarith [completed.room])
  exact near.mono (by linarith)

theorem ne_sink (owned : matching.colOf.get row = some col) : col ≠ sink := by
  rintro rfl
  have owner := (completed.consistent row col).mp owned
  rw [completed.freeSink] at owner
  contradiction

theorem ne_origin (owned : matching.colOf.get row = some col) : row ≠ origin := by
  rintro rfl
  rw [completed.free] at owned
  contradiction

/-- The potential of a settled column falls by its slack, and that of its row rises by as much. -/
theorem near_shifted_owned (visited : final.visited.get col = true)
    (owned : matching.colOf.get row = some col) :
    Near ((potentials.shifted final matching origin sink).row.get row)
        (value (potentials.row.get row) + value (final.slack sink col)) (error κ) ∧
      Near ((potentials.shifted final matching origin sink).col.get col)
        (value (potentials.col.get col) - value (final.slack sink col)) (error κ) := by
  have shifts : final.shifts sink col = true := by
    simp [shifts, visited, completed.ne_sink owned]
  have row_eq : (potentials.shifted final matching origin sink).row.get row =
      potentials.row.get row + final.slack sink col := by
    rw [Potentials.shifted_row, if_neg (completed.ne_origin owned), owned]
    simp [shifts]
  have col_eq : (potentials.shifted final matching origin sink).col.get col =
      potentials.col.get col - final.slack sink col := by
    rw [Potentials.shifted_col, if_pos shifts]
  have slack := completed.near_slack col
  obtain ⟨slackLow, slackHigh⟩ := abs_le.mp slack.close
  obtain ⟨sinkLow, sinkHigh⟩ := abs_le.mp completed.abs_sink_le
  obtain ⟨low, high⟩ := abs_le.mp (completed.label col).abs_add_le
  obtain ⟨standsLow, standsHigh⟩ := abs_le.mp
    ((completed.label col).stands completed.costs completed.prices owned).abs_sub_le
  have room := completed.room
  have reach := completed.reach_le
  have tall := completed.height_le
  rw [row_eq, col_eq]
  constructor
  · have near := (Near.self (completed.prices.finite_row row)).add (Near.self slack.finite) (by
      have inside : |value (potentials.row.get row) + value (final.slack sink col)| ≤
          2 * spread + height := abs_le.mpr ⟨by linarith, by linarith⟩
      linarith)
    exact near.mono (by linarith)
  · have near := (Near.self (completed.prices.finite_col col)).sub (Near.self slack.finite) (by
      have inside : |value (potentials.col.get col) - value (final.slack sink col)| ≤
          2 * spread + height := abs_le.mpr ⟨by linarith, by linarith⟩
      linarith)
    exact near.mono (by linarith)

/-- The potential of the origin rises by the length of the path. -/
theorem near_shifted_origin :
    Near ((potentials.shifted final matching origin sink).row.get origin)
      (value (potentials.row.get origin) + value (final.distance.get sink)) (error κ) := by
  have row_eq : (potentials.shifted final matching origin sink).row.get origin =
      potentials.row.get origin + final.distance.get sink := by
    rw [Potentials.shifted_row, if_pos rfl]
  obtain ⟨sinkLow, sinkHigh⟩ := abs_le.mp completed.abs_sink_le
  obtain ⟨priceLow, priceHigh⟩ := abs_le.mp (completed.prices.free_row origin completed.free)
  have small : 0 ≤ error κ := RoundedCost.error_nonneg
  have nonneg := completed.nonneg
  have reach := completed.reach_le
  have near := (Near.self (completed.prices.finite_row origin)).add
    (Near.self (completed.label sink).finite) (by
      have inside : |value (potentials.row.get origin) + value (final.distance.get sink)| ≤
          2 * spread := abs_le.mpr ⟨by linarith, by linarith⟩
      linarith [completed.room, completed.height_le])
  rw [row_eq]
  exact near.mono (by linarith)

/-- A row that the search has come to rises by what it lies below the end of the path. -/
theorem near_shifted_row {reached : κ} (comes : final.ComesTo matching origin row reached) :
    Near ((potentials.shifted final matching origin sink).row.get row)
      (value (potentials.row.get row) + (value (final.distance.get sink) - value reached))
      (2 * error κ) := by
  have small : 0 ≤ error κ := RoundedCost.error_nonneg
  rcases comes with ⟨rfl, rfl⟩ | ⟨col, visited, owned, rfl⟩
  · rw [RoundedCost.value_zero, sub_zero]
    exact completed.near_shifted_origin.mono (by linarith)
  · have near := (completed.near_shifted_owned visited owned).1
    obtain ⟨slackLow, slackHigh⟩ := abs_le.mp (completed.near_slack col).close
    obtain ⟨low, high⟩ := abs_le.mp near.close
    exact ⟨near.finite, abs_le.mpr ⟨by linarith, by linarith⟩⟩

/-- A settled column falls by what it lies below the end of the path. -/
theorem near_shifted_col (visited : final.visited.get col = true) :
    Near ((potentials.shifted final matching origin sink).col.get col)
      (value (potentials.col.get col) -
        (value (final.distance.get sink) - value (final.distance.get col))) (2 * error κ) := by
  have small : 0 ≤ error κ := RoundedCost.error_nonneg
  rcases completed.matched col visited with rfl | owned
  · rw [potentials.shifted_col_sink, sub_self, sub_zero]
    exact (Near.self (completed.prices.finite_col col)).mono (by linarith)
  · obtain ⟨owner, owner_eq⟩ := Option.ne_none_iff_exists'.mp owned
    have near := (completed.near_shifted_owned visited
      ((completed.consistent owner col).mpr owner_eq)).2
    obtain ⟨slackLow, slackHigh⟩ := abs_le.mp (completed.near_slack col).close
    obtain ⟨low, high⟩ := abs_le.mp near.close
    exact ⟨near.finite, abs_le.mpr ⟨by linarith, by linarith⟩⟩

/-- A pair by which a column was reached becomes tight up to seven errors. -/
theorem abs_reduced_of_edge (visited : final.visited.get col = true)
    (predecessor : final.predecessor.get col = some row) :
    |value (matrix.get row col) -
        value ((potentials.shifted final matching origin sink).row.get row) -
        value ((potentials.shifted final matching origin sink).col.get col)| ≤ 7 * error κ := by
  obtain ⟨via, reached, via_eq, comes, near⟩ := (completed.label col).exists_row
  obtain rfl := Option.some.inj (via_eq.symm.trans predecessor)
  obtain ⟨low, high⟩ := abs_le.mp near.close
  obtain ⟨rowLow, rowHigh⟩ := abs_le.mp (completed.near_shifted_row comes).close
  obtain ⟨colLow, colHigh⟩ := abs_le.mp (completed.near_shifted_col visited).close
  exact abs_le.mpr ⟨by linarith, by linarith⟩

/-- A matched pair loses two errors at most. -/
theorem abs_reduced_of_owned (owned : matching.colOf.get row = some col) :
    |value (matrix.get row col) -
        value ((potentials.shifted final matching origin sink).row.get row) -
        value ((potentials.shifted final matching origin sink).col.get col)| ≤
      slack + 2 * error κ := by
  have small : 0 ≤ error κ := RoundedCost.error_nonneg
  have tight := completed.prices.tight row col owned
  cases visited : final.visited.get col with
  | true =>
    obtain ⟨row_near, col_near⟩ := completed.near_shifted_owned visited owned
    obtain ⟨rowLow, rowHigh⟩ := abs_le.mp row_near.close
    obtain ⟨colLow, colHigh⟩ := abs_le.mp col_near.close
    obtain ⟨tightLow, tightHigh⟩ := abs_le.mp tight
    exact abs_le.mpr ⟨by linarith, by linarith⟩
  | false =>
    have unreached : ¬ final.Reaches matching origin row := by
      rintro (isOrigin | ⟨other, visited', owned'⟩)
      · exact completed.ne_origin owned isOrigin
      · rw [Option.some.inj (owned.symm.trans owned'), visited'] at visited
        contradiction
    rw [potentials.shifted_row_of_not_reaches final unreached,
      potentials.shifted_col_of_unvisited final visited]
    linarith

/-- Every potential stays finite. -/
theorem isFinite_shifted :
    (∀ row, isFinite ((potentials.shifted final matching origin sink).row.get row) = true) ∧
      ∀ col, isFinite ((potentials.shifted final matching origin sink).col.get col) = true := by
  constructor
  · intro row
    by_cases reaches : final.Reaches matching origin row
    · rcases reaches with rfl | ⟨col, visited, owned⟩
      · exact completed.near_shifted_origin.finite
      · exact (completed.near_shifted_owned visited owned).1.finite
    · rw [potentials.shifted_row_of_not_reaches final reaches]
      exact completed.prices.finite_row row
  · intro col
    cases visited : final.visited.get col with
    | true => exact (completed.near_shifted_col visited).finite
    | false =>
      rw [potentials.shifted_col_of_unvisited final visited]
      exact completed.prices.finite_col col

/-- The potentials of columns stay below their height. -/
theorem abs_shifted_col_le (col : Fin n) :
    |value ((potentials.shifted final matching origin sink).col.get col)| ≤ height := by
  cases visited : final.visited.get col with
  | true =>
    obtain ⟨sinkLow, sinkHigh⟩ := abs_le.mp completed.abs_sink_le
    obtain ⟨low, high⟩ := abs_le.mp (completed.label col).abs_add_le
    obtain ⟨colLow, colHigh⟩ := abs_le.mp (completed.near_shifted_col visited).close
    have tall := completed.height_le
    exact abs_le.mpr ⟨by linarith, by linarith⟩
  | false =>
    rw [potentials.shifted_col_of_unvisited final visited]
    exact completed.prices.abs_col col

/-- The potentials after an augmentation are moderate again, with two more errors of slack. -/
theorem moderate_shifted (grown : 5 * error κ ≤ slack) (reached : final.Traced matching origin)
    (grows : matching.Grows (matching.assignAll (final.path matching origin sink)) origin sink) :
    (potentials.shifted final matching origin sink).Moderate matrix
      (matching.assignAll (final.path matching origin sink)) size (slack + 2 * error κ) height where
  finite_row := completed.isFinite_shifted.1
  finite_col := completed.isFinite_shifted.2
  free_row row free := by
    obtain ⟨before, notOrigin⟩ := (grows.colOf_eq_none_iff row).mp free
    rw [potentials.shifted_row_of_not_reaches final (not_reaches_of_free before notOrigin)]
    exact completed.prices.free_row row before
  free_col col free := by
    obtain ⟨before, notSink⟩ := (grows.rowOf_eq_none_iff col).mp free
    have unsettled : final.visited.get col = false := by
      by_contra visited
      rcases completed.matched col (by simpa using visited) with isSink | owned
      · exact notSink isSink
      · exact owned before
    rw [potentials.shifted_col_of_unvisited final unsettled]
    exact completed.prices.free_col col before
  abs_col := completed.abs_shifted_col_le
  tight row col paired := by
    -- A pair of the path is tight by its search, and any other was matched before.
    rcases Matching.mem_or_colOf_of_assignAll paired with member | owned
    · obtain ⟨visited, predecessor⟩ := (reached.pathTo_path completed.visited).settled member
      have tight := completed.abs_reduced_of_edge visited predecessor
      linarith
    · exact completed.abs_reduced_of_owned owned

end Completed

end Search

namespace Progress

variable {progress : Progress κ n}

/-! ## Augmentations -/

/-- A free row is matched as long as potentials and distances stay in range. -/
theorem augment_of_moderate [LawfulCost κ] (costs : matrix.Moderate size)
    (prices : progress.scratch.potentials.Moderate matrix progress.scratch.matching size slack
      height)
    (consistent : progress.scratch.matching.Consistent)
    (free : progress.scratch.matching.colOf.get row = none) (grown : 5 * error κ ≤ slack)
    (tall : 2 * (n * Search.reach κ size slack) + 2 * error κ ≤ height)
    (room : 2 * (n * Search.reach κ size slack) + height < range κ) :
    ∃ next, progress.augment matrix row = (true, next) ∧
      next.scratch.matching.Consistent ∧
      next.scratch.potentials.Moderate matrix next.scratch.matching size (slack + 2 * error κ)
        height := by
  have small : 0 ≤ error κ := RoundedCost.error_nonneg
  have nonneg : 0 ≤ slack := by linarith
  have reach := Search.reach_nonneg costs row nonneg
  have size_nonneg : 0 ≤ size := (abs_nonneg _).trans (costs.abs_le row row)
  have one_le : (1 : ℚ) ≤ n := by exact_mod_cast row.pos
  have spread : Search.reach κ size slack ≤ n * Search.reach κ size slack :=
    le_mul_of_one_le_left reach one_le
  obtain ⟨final, sink, found, label⟩ := Search.exists_fromRow_of_moderate costs prices nonneg
    (by linarith) (by linarith) consistent free progress.scratch.search
  obtain ⟨traced, visited, freeSink, matched⟩ := Search.fromRow_found consistent found
  have completed : final.Completed matrix progress.scratch.potentials progress.scratch.matching row
      sink size slack height (n * Search.reach κ size slack) :=
    { costs, prices, label, visited, matched, free, freeSink, consistent, nonneg, room
      height_le := tall
      reach_le := by
        rw [Search.reach] at spread ⊢
        linarith }
  have grows := Matching.grows_assignAll_path consistent free found
  exact ⟨_, augment_of_found found, grows.consistent,
    completed.moderate_shifted grown traced grows⟩

/-- All rows are matched if there is room for two more errors of slack for each of them, and the
potentials are moderate then. -/
theorem augmentAll_of_moderate [LawfulCost κ] {rows : List (Fin n)} {limit : ℚ}
    (costs : matrix.Moderate size)
    (prices : progress.scratch.potentials.Moderate matrix progress.scratch.matching size slack
      height)
    (consistent : progress.scratch.matching.Consistent) (grown : 5 * error κ ≤ slack)
    (few : slack + rows.length * (2 * error κ) ≤ limit)
    (tall : 2 * (n * Search.reach κ size limit) + 2 * error κ ≤ height)
    (room : 2 * (n * Search.reach κ size limit) + height < range κ) :
    ∃ final, progress.augmentAll matrix rows = (none, final) ∧
      final.scratch.potentials.Moderate matrix final.scratch.matching size limit height := by
  have small : 0 ≤ error κ := RoundedCost.error_nonneg
  induction rows generalizing progress slack with
  | nil =>
    rw [List.length_nil, Nat.cast_zero, zero_mul, add_zero] at few
    exact ⟨progress, rfl, prices.mono few⟩
  | cons row rest ih =>
    -- The slack grows by two errors and the list gets shorter by one row, so `few` stays as it is.
    rw [List.length_cons] at few
    push_cast at few
    have left : 0 ≤ (rest.length : ℚ) * (2 * error κ) := by positivity
    rw [augmentAll]
    split_ifs with isFree
    · have free := Matching.isFreeRow_iff.mp isFree
      have wider : n * Search.reach κ size slack ≤ n * Search.reach κ size limit := by
        refine mul_le_mul_of_nonneg_left ?_ (Nat.cast_nonneg n)
        rw [Search.reach, Search.reach]
        linarith
      obtain ⟨next, outcome, consistent', prices'⟩ := augment_of_moderate costs prices consistent
        free grown (by linarith) (by linarith)
      rw [outcome]
      exact ih prices' consistent' (by linarith) (by linarith)
    · exact ih prices consistent grown (by linarith)

end Progress

/-! ## Whole solves -/

section

variable {m : Nat} {scratch : Scratch κ m} {tally : Tally} {initialization : DualStart}

/-- The smallest cost of a row is one of its costs. -/
theorem SquareMatrix.Moderate.rowMinimum (costs : matrix.Moderate size) (row : Fin n) :
    isFinite (matrix.rowMinimum row) = true ∧ |value (matrix.rowMinimum row)| ≤ size := by
  obtain ⟨best, _, least⟩ := SquareMatrix.exists_cheapest (costs.finite row)
  rw [least]
  exact ⟨costs.finite row best, costs.abs_le row best⟩

/-- Either start leaves moderate potentials, whatever the slack and the height. -/
theorem Progress.moderate_startAt (initialization : DualStart) (scratch : Scratch κ m)
    (tally : Tally) (costs : matrix.Moderate size) (wide : 0 ≤ slack) (tall : 0 ≤ height) :
    let start := (Progress.begin (scratch.cleared n) tally).startAt matrix initialization
    start.scratch.potentials.Moderate matrix start.scratch.matching size slack height := by
  intro start
  have reduced : start.Reduced matrix _ :=
    Progress.Reduced.startAt matrix initialization scratch tally
  have rowPrice (row : Fin n) : isFinite (start.scratch.potentials.row.get row) = true ∧
      |value (start.scratch.potentials.row.get row)| ≤ size := by
    rw [reduced.row_eq]
    split_ifs with member
    · exact costs.rowMinimum row
    · refine ⟨RoundedCost.isFinite_zero, ?_⟩
      rw [RoundedCost.value_zero, abs_zero]
      exact (abs_nonneg _).trans (costs.abs_le row row)
  have colPrice (col : Fin n) : value (start.scratch.potentials.col.get col) = 0 := by
    rw [reduced.col_eq, RoundedCost.value_zero]
  refine
    { finite_row := fun row => (rowPrice row).1
      finite_col := fun col => ?_
      free_row := fun row _ => (rowPrice row).2
      free_col := fun col _ => colPrice col
      abs_col := fun col => ?_
      tight := fun row col owned => ?_ }
  · rw [reduced.col_eq]
    exact RoundedCost.isFinite_zero
  · rwa [colPrice, abs_zero]
  · obtain ⟨member, smallest⟩ := reduced.tight row col owned
    have same := RoundedCost.value_eq_of_beq (costs.finite row col) (costs.rowMinimum row).1
      smallest
    rwa [reduced.row_eq, if_pos member, colPrice, same, sub_self, sub_zero, abs_zero]

/-- How high potentials can get in the solve of a square, with two errors of slack for every
augmentation and five more for the first. -/
def climb (κ : Type) [CostNumber κ] [RoundedCost κ] (n : Nat) (size : ℚ) : ℚ :=
  2 * (n * Search.reach κ size ((2 * n + 5) * error κ)) + 2 * error κ

/-- If the costs of a square leave room for the potentials and the distances, all its rows are
matched, and the potentials stay below the climb. -/
theorem exists_moderate_of_solveSquare [LawfulCost κ] (costs : matrix.Moderate size)
    (positive : 0 < n) (room : 2 * climb κ n size < range κ) :
    ∃ final, solveSquare matrix initialization (scratch.cleared n) tally = (none, final) ∧
      final.scratch.potentials.Moderate matrix final.scratch.matching size
        ((2 * n + 5) * error κ) (climb κ n size) := by
  have small : 0 ≤ error κ := RoundedCost.error_nonneg
  have wide : 0 ≤ (2 * (n : ℚ) + 5) * error κ := by positivity
  have reach := Search.reach_nonneg costs ⟨0, positive⟩ wide
  have tall : 0 ≤ climb κ n size := by
    rw [climb]
    positivity
  have start := Progress.moderate_startAt initialization scratch tally costs
    (by positivity : 0 ≤ 5 * error κ) tall
  have consistent :=
    (Progress.Reduced.startAt matrix initialization scratch tally).consistent
  have few : 5 * error κ + (List.finRange n).length * (2 * error κ) ≤ (2 * n + 5) * error κ := by
    rw [List.length_finRange]
    linarith
  have inside : 2 * (n * Search.reach κ size ((2 * n + 5) * error κ)) + climb κ n size <
      range κ := by
    rw [climb] at room ⊢
    linarith
  exact Progress.augmentAll_of_moderate costs start consistent le_rfl few le_rfl inside

/-- No row of a square is stranded if its costs leave room for the potentials and the distances. -/
theorem solveSquare_of_moderate [LawfulCost κ] (costs : matrix.Moderate size)
    (room : 2 * climb κ n size < range κ) :
    (solveSquare matrix initialization (scratch.cleared n) tally).1 = none := by
  rcases Nat.eq_zero_or_pos n with rfl | positive
  · rfl
  obtain ⟨final, ended, _⟩ := exists_moderate_of_solveSquare costs positive room
  rw [ended]

end

end LinearAssignment
