import LinearAssignment.Proofs.RunInvariant
import LinearAssignment.Proofs.Search.Alternating

/-! # The order in which a search settles columns

In exact arithmetic a search on a priced matching is Dijkstra's. Every round settles the lowest of
the open columns at the least tentative distance, the distances never fall from one round to the
next, and each of them is the least length of an alternating path from the row where the search
began. So no slack is negative: the shift of the potentials lowers no row that is matched and raises
no column.
-/

namespace LinearAssignment

open ExactCost (finite)

variable {n : Nat} {matrix : SquareMatrix ExactCost n} {potentials : Potentials ExactCost n}
  {matching : Matching n} {search before after scratch : Search ExactCost n}
  {origin sink row col : Fin n} {reached : ExactCost} {length : ℚ}

namespace Search

/-! ## The column of a round -/

/-- The lowest of the columns that are not settled and nearest of them. -/
structure IsNearest (search : Search ExactCost n) (col : Fin n) : Prop where
  unsettled : search.visited.get col = false
  le : ∀ other, search.visited.get other = false →
    search.distance.get col ≤ search.distance.get other
  lowest : ∀ other, search.visited.get other = false →
    search.distance.get other = search.distance.get col → col ≤ other

theorem isNearest_of_nearest? (nearest : search.nearest? = some col) : search.IsNearest col where
  unsettled := visited_of_nearest? nearest
  le _ unsettled := ExactCost.le_iff_not_lt.mpr (not_lt_of_nearest? nearest unsettled)
  lowest other unsettled same := by
    refine not_lt.mp fun lower => ?_
    have further := lt_of_nearest? nearest unsettled lower
    rw [same] at further
    exact ExactCost.lt_irrefl _ further

/-- The column at a position of a record is the nearest one of the round at this position: the
round after those that have settled the columns before it. -/
def PicksNearest (search : Search ExactCost n) (matrix : SquareMatrix ExactCost n)
    (potentials : Potentials ExactCost n) (matching : Matching n) (origin : Fin n)
    (position : Nat) (col : Fin n) : Prop :=
  ∃ unsettled before row reached,
    Reachable matrix potentials matching origin unsettled before row reached ∧
      before.scanned.toList = search.scanned.toList.take position ∧
      (before.relax matrix potentials row reached).IsNearest col ∧
      (before.relax matrix potentials row reached).distance.get col = search.distance.get col

/-- Columns are settled from near to far, each as the nearest of its round. -/
structure InOrder (search : Search ExactCost n) (matrix : SquareMatrix ExactCost n)
    (potentials : Potentials ExactCost n) (matching : Matching n) (origin : Fin n) : Prop where
  sorted : search.scanned.toList.Pairwise fun first later =>
    search.distance.get first ≤ search.distance.get later
  picks : ∀ position col, search.scanned.toList[position]? = some col →
    search.PicksNearest matrix potentials matching origin position col

theorem InOrder.blank : (blank ExactCost n).InOrder matrix potentials matching origin where
  sorted := by simp
  picks := by simp

section

variable (rational : matrix.Rational) (prices : potentials.Rational)
  (consistent : matching.Consistent) (free : matching.colOf.get origin = none)
  (feasible : ∀ row col, matching.colOf.get row ≠ none → 0 ≤ reduced matrix potentials row col)

include rational prices consistent free feasible

/-- A column that is settled is no nearer than those before it. -/
theorem Settles.le_distance {unsettled : Nat}
    (reachable : Reachable matrix potentials matching origin unsettled before row reached)
    (round : Settles matrix potentials before row reached col after) {other : Fin n}
    (visited : before.visited.get other = true) :
    after.distance.get other ≤ after.distance.get col := by
  obtain ⟨level, rfl, measured, reaches, nonneg⟩ :=
    reachable.measured rational prices consistent free feasible
  obtain ⟨d, bound, known⟩ := measured.settled other visited
  obtain ⟨next, distance, _⟩ :=
    round.measured rational prices consistent free measured reaches nonneg
  have nonneg := nonneg.resolve_left fun none => by simp [none other] at visited
  rw [round.distance_of_visited visited, known, distance, ExactCost.finite_le_finite]
  exact bound.trans (round.level_le rational prices measured nonneg distance)

/-- A round keeps the order. -/
theorem Settles.inOrder {unsettled : Nat}
    (reachable : Reachable matrix potentials matching origin unsettled before row reached)
    (round : Settles matrix potentials before row reached col after)
    (order : before.InOrder matrix potentials matching origin) :
    after.InOrder matrix potentials matching origin := by
  obtain ⟨traced, _⟩ := reachable.traced consistent
  have scanned : after.scanned.toList = before.scanned.toList ++ [col] := by
    rw [round.scanned, Array.toList_push]
  have frozen : ∀ other ∈ before.scanned.toList,
      after.distance.get other = before.distance.get other := fun other member =>
    round.distance_of_visited ((traced.visited_iff other).mpr member)
  refine ⟨?_, fun position other found => ?_⟩
  · rw [scanned, List.pairwise_append]
    refine ⟨?_, List.pairwise_singleton .., fun first member later same => ?_⟩
    · refine order.sorted.imp_of_mem fun {first later} member member' le => ?_
      rwa [frozen first member, frozen later member']
    · obtain rfl := List.mem_singleton.mp same
      exact round.le_distance rational prices consistent free feasible reachable
        ((traced.visited_iff first).mpr member)
  · rw [scanned] at found
    rcases Nat.lt_or_ge position before.scanned.toList.length with old | new
    · rw [List.getElem?_append_left old] at found
      obtain ⟨unsettled, earlier, via, distance, reachable', prefixed, nearest, same⟩ :=
        order.picks position other found
      refine ⟨unsettled, earlier, via, distance, reachable', ?_, nearest, ?_⟩
      · rw [prefixed, scanned, List.take_append_of_le_length old.le]
      · rw [same, frozen other (List.mem_of_getElem? found)]
    · rw [List.getElem?_append_right new] at found
      obtain ⟨last, rfl⟩ := List.getElem?_eq_some_iff.mp found
      rw [List.length_singleton] at last
      obtain rfl : position = before.scanned.toList.length := by omega
      simp only [Nat.sub_self, List.getElem_cons_zero]
      refine ⟨unsettled, before, row, reached, reachable, ?_,
        isNearest_of_nearest? round.nearest, ?_⟩
      · rw [scanned, List.take_left]
      · rw [round.after_eq, settle_distance]

/-- In every state between two rounds the order has been kept. -/
theorem Reachable.inOrder {unsettled : Nat}
    (reachable : Reachable matrix potentials matching origin unsettled search row reached) :
    search.InOrder matrix potentials matching origin := by
  induction reachable with
  | start => exact .blank
  | round reachable settles _ ih =>
    exact settles.inOrder rational prices consistent free feasible reachable ih

/-- A search that ends at a column has kept the order throughout. -/
theorem inOrder_of_fromRow
    (found : fromRow matrix potentials matching scratch origin = (search, some sink)) :
    search.InOrder matrix potentials matching origin := by
  have ends := fromRow_ends matrix potentials matching scratch origin
  rw [found] at ends
  obtain ⟨_, before, row, reached, reachable, round, _⟩ := ends
  exact round.inOrder rational prices consistent free feasible reachable
    (reachable.inOrder rational prices consistent free feasible)

end

/-! ## Slacks -/

namespace Ended

variable (ended : search.Ended matrix potentials matching origin sink length)

include ended

/-- No settled column lies beyond the end of the path. -/
theorem zero_le_slack (visited : search.visited.get col = true) :
    finite 0 ≤ search.slack sink col := by
  obtain ⟨d, bound, distance⟩ := ended.measured.settled col visited
  rw [slack, ended.distance, distance, ExactCost.finite_sub, ExactCost.finite_le_finite]
  linarith

/-- Rows that are matched do not fall. -/
theorem le_shifted_row (matched : matching.colOf.get row ≠ none) :
    potentials.row.get row ≤ (potentials.shifted search matching origin sink).row.get row := by
  by_cases reaches : search.Reaches matching origin row
  · rcases reaches with rfl | ⟨col, visited, owned⟩
    · exact absurd ended.free matched
    · obtain ⟨d, bound, distance⟩ := ended.measured.settled col visited
      rw [ended.shifted_row_of_reachesAt (.inr ⟨col, visited, owned, distance⟩),
        ExactCost.eq_finite_value (ended.prices.row row), ExactCost.finite_le_finite,
        ExactCost.value_finite]
      linarith
  · rw [potentials.shifted_row_of_not_reaches search reaches]
    exact ExactCost.le_refl _

/-- Columns do not rise. -/
theorem shifted_col_le_col (col : Fin n) :
    (potentials.shifted search matching origin sink).col.get col ≤ potentials.col.get col := by
  rw [ExactCost.eq_finite_value (ended.rational_shifted.col col),
    ExactCost.eq_finite_value (ended.prices.col col), ExactCost.finite_le_finite]
  exact ended.shifted_col_le col

end Ended

end Search

/-! ## The search of an augmentation -/

/-- From whatever state a solve of a square may be in between two augmentations, the search from a
free row ends at a free column. It settles the columns from near to far, each as the lowest of the
nearest ones that are open, and their distances are the least lengths of all alternating paths from
the row. So their slacks are not negative, and the potentials are shifted without lowering a matched
row or raising a column. -/
theorem fromRow_shortest {progress : Progress ExactCost n} {initialization : DualStart}
    (rational : matrix.Rational) (invariant : progress.Invariant matrix initialization)
    (free : progress.scratch.matching.colOf.get row = none) :
    ∃ next sink, progress.augment matrix row = (true, next) ∧
      Search.fromRow matrix progress.scratch.potentials progress.scratch.matching
        progress.scratch.search row = (next.scratch.search, some sink) ∧
      progress.scratch.matching.rowOf.get sink = none ∧
      next.scratch.search.scanned.back? = some sink ∧
      next.scratch.search.InOrder matrix progress.scratch.potentials progress.scratch.matching row ∧
      (∀ col ∈ next.scratch.search.scanned, ∃ d,
        next.scratch.search.distance.get col = finite d ∧
          ShortestLength matrix progress.scratch.potentials progress.scratch.matching row col d) ∧
      (∀ col ∈ next.scratch.search.scanned, finite 0 ≤ next.scratch.search.slack sink col) ∧
      (∀ other, progress.scratch.matching.colOf.get other ≠ none →
        progress.scratch.potentials.row.get other ≤ next.scratch.potentials.row.get other) ∧
      ∀ col, next.scratch.potentials.col.get col ≤ progress.scratch.potentials.col.get col := by
  have priced := invariant.priced
  obtain ⟨search, sink, length, found, ended⟩ :=
    priced.exists_ended rational free progress.scratch.search
  obtain ⟨traced, _, freeSink, _⟩ := Search.fromRow_found priced.consistent found
  have order := Search.inOrder_of_fromRow rational priced.rational priced.consistent free
    priced.feasible found
  have visited : ∀ col ∈ search.scanned, search.visited.get col = true := fun col member =>
    (traced.visited_iff col).mpr (Array.mem_toList_iff.mpr member)
  refine ⟨_, sink, Progress.augment_of_found found, found, freeSink,
    Search.back?_of_fromRow found, order,
    fun col member => ?_, fun col member => ?_, fun other matched => ?_, fun col => ?_⟩
  · exact ended.shortestLength traced priced.feasible (visited col member)
  · exact ended.zero_le_slack (visited col member)
  · exact ended.le_shifted_row matched
  · exact ended.shifted_col_le_col col

/-- A row with negative costs takes over the column of the first row, which goes on to the last
column: both matched columns are settled before the free one. -/
theorem fromRow_shortest_rerouted :
    let matrix : SquareMatrix ExactCost 3 :=
      ⟨#[finite (-3), finite 1, finite 2,
        finite (-4), finite (-2), finite 5,
        finite (-9), finite (-6), finite 4], rfl⟩
    matrix.Rational ∧ ∃ progress : Progress ExactCost 3,
      (Progress.begin (Scratch.nothing.cleared 3) {}).augmentAll matrix [0, 1] =
        (none, progress) ∧
      progress.Invariant matrix .zero ∧ progress.scratch.matching.colOf.get 2 = none ∧
      ∃ next sink, progress.augment matrix 2 = (true, next) ∧
        next.scratch.search.scanned.back? = some sink ∧
        next.scratch.search.InOrder matrix progress.scratch.potentials progress.scratch.matching
          2 ∧
        ∀ col ∈ next.scratch.search.scanned, ∃ d,
          next.scratch.search.distance.get col = finite d ∧
            ShortestLength matrix progress.scratch.potentials progress.scratch.matching 2 col
              d := by
  intro matrix
  have rational : matrix.Rational := by
    unfold SquareMatrix.Rational
    decide
  have start := Progress.Invariant.startAt rational .zero (Scratch.nothing : Scratch ExactCost 0) {}
  obtain ⟨progress, reached, invariant⟩ := start.augmentAll rational [0, 1]
  have free : ((Progress.begin (Scratch.nothing.cleared 3) {}).augmentAll matrix
      [0, 1]).2.scratch.matching.colOf.get 2 = none := by decide +kernel
  rw [show (Progress.begin (Scratch.nothing.cleared 3) {}).augmentAll matrix [0, 1] =
    (none, progress) from reached] at free
  obtain ⟨next, sink, outcome, _, _, last, order, shortest, _⟩ :=
    fromRow_shortest rational invariant free
  exact ⟨rational, progress, reached, invariant, free, next, sink, outcome, last, order, shortest⟩

end LinearAssignment
