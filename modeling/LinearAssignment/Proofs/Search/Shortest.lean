import LinearAssignment.Proofs.Cost.Exact
import LinearAssignment.Proofs.Search.Path
import Mathlib.Data.Fintype.Card
import Mathlib.Tactic.Ring

/-! # Shortest paths in exact arithmetic

With exact costs a search is Dijkstra's: if no pair of a matched row has a negative reduced cost,
columns are settled in the order of their distance, and no path over a row that has been reached is
shorter than what is known. The row where the search begins needs no such assumption, because
nothing is settled before it. Since a free row leaves a free column, the search always ends at one.
-/

namespace LinearAssignment

open CostNumber (infinity isFinite ofNat)
open ExactCost (finite)

variable {n : Nat} {matrix : SquareMatrix ExactCost n} {potentials : Potentials ExactCost n}
  {matching : Matching n} {search before after scratch : Search ExactCost n}
  {origin row col : Fin n} {reached : ExactCost} {level : ℚ}

/-- All costs of a square are rational. -/
def SquareMatrix.Rational (matrix : SquareMatrix ExactCost n) : Prop :=
  ∀ row col, isFinite (matrix.get row col) = true

/-- All potentials are rational. -/
structure Potentials.Rational (potentials : Potentials ExactCost n) : Prop where
  row : ∀ row, isFinite (potentials.row.get row) = true
  col : ∀ col, isFinite (potentials.col.get col) = true

/-- What the cost of a pair exceeds its potentials by, as a rational. -/
def reduced (matrix : SquareMatrix ExactCost n) (potentials : Potentials ExactCost n)
    (row col : Fin n) : ℚ :=
  (matrix.get row col).value - (potentials.row.get row).value - (potentials.col.get col).value

namespace Search

/-! ## The nearest column -/

/-- What a column has to undercut to be nearer than the best one so far. -/
private def bound (search : Search ExactCost n) (best : Option (Fin n)) : ExactCost :=
  match best with
  | none => infinity
  | some col => search.distance.get col

private theorem not_lt_bound_foldl (cols : List (Fin n)) (col : Fin n) (member : col ∈ cols)
    (unsettled : search.visited.get col = false) :
    ¬ search.distance.get col < search.bound (cols.foldl search.nearer none) := by
  induction cols using List.reverseRecOn with
  | nil => contradiction
  | append_singleton rest last ih =>
    rw [List.foldl_append, List.foldl_cons, List.foldl_nil]
    generalize rest.foldl search.nearer none = best at ih ⊢
    have step : search.nearer best last =
        if !search.visited.get last && decide (search.distance.get last < search.bound best)
        then some last else best := by
      cases best <;> rfl
    rw [step, List.mem_append, List.mem_singleton] at *
    split_ifs with nearer
    · simp only [Bool.and_eq_true, decide_eq_true_eq] at nearer
      rcases member with old | rfl
      · exact ExactCost.not_lt_of_lt nearer.2 (ih old)
      · exact ExactCost.lt_irrefl _
    · rcases member with old | rfl
      · exact ih old
      · simpa [unsettled] using nearer

/-- No column that is not settled is nearer than the nearest. -/
theorem not_lt_of_nearest? (nearest : search.nearest? = some col) {other : Fin n}
    (unsettled : search.visited.get other = false) :
    ¬ search.distance.get other < search.distance.get col := by
  have least := not_lt_bound_foldl _ other (List.mem_finRange other) unsettled
  rw [show (List.finRange n).foldl search.nearer none = some col from nearest] at least
  exact least

private theorem lt_of_foldl_nearer {cols : List (Fin n)} (ascending : cols.Pairwise (· < ·))
    (found : cols.foldl search.nearer none = some col) :
    col ∈ cols ∧ ∀ other ∈ cols, search.visited.get other = false → other < col →
      search.distance.get col < search.distance.get other := by
  induction cols using List.reverseRecOn with
  | nil => contradiction
  | append_singleton rest last ih =>
    rw [List.foldl_append, List.foldl_cons, List.foldl_nil] at found
    have best : ∀ other ∈ rest, search.visited.get other = false →
        ¬ search.distance.get other < search.bound (rest.foldl search.nearer none) :=
      fun other member unsettled => not_lt_bound_foldl rest other member unsettled
    rw [List.pairwise_append] at ascending
    obtain ⟨ascending, _, below⟩ := ascending
    generalize rest.foldl search.nearer none = known at ih found best
    have step : search.nearer known last =
        if !search.visited.get last && decide (search.distance.get last < search.bound known)
        then some last else known := by
      cases known <;> rfl
    rw [step] at found
    split_ifs at found with nearer
    · obtain rfl := Option.some.inj found
      simp only [Bool.and_eq_true, decide_eq_true_eq] at nearer
      refine ⟨by simp, fun other member unsettled before => ?_⟩
      rcases List.mem_append.mp member with old | same
      · exact ExactCost.lt_of_lt_of_le nearer.2
          (ExactCost.le_iff_not_lt.mpr (best other old unsettled))
      · obtain rfl := List.mem_singleton.mp same
        exact absurd before (lt_irrefl _)
    · obtain ⟨member, first⟩ := ih ascending found
      refine ⟨List.mem_append_left _ member, fun other old unsettled before => ?_⟩
      rcases List.mem_append.mp old with old | same
      · exact first other old unsettled before
      · obtain rfl := List.mem_singleton.mp same
        exact absurd before (lt_asymm (below col member other (by simp)))

/-- Columns before the nearest that are not settled are further away than it. -/
theorem lt_of_nearest? (nearest : search.nearest? = some col) {other : Fin n}
    (unsettled : search.visited.get other = false) (before : other < col) :
    search.distance.get col < search.distance.get other :=
  (lt_of_foldl_nearer (List.pairwise_lt_finRange n) nearest).2 other (List.mem_finRange other)
    unsettled before

/-- There is a nearest column if one that is not settled has a finite distance. -/
theorem nearest?_ne_none {d : ℚ} (unsettled : search.visited.get col = false)
    (distance : search.distance.get col = finite d) : search.nearest? ≠ none := by
  intro none
  have least := not_lt_bound_foldl _ col (List.mem_finRange col) unsettled
  rw [show (List.finRange n).foldl search.nearer .none = .none from none, distance] at least
  exact least (ExactCost.finite_lt_top d)

/-! ## Distances -/

/-- The length of a path that is extended to a column. -/
theorem candidate_eq (rational : matrix.Rational) (prices : potentials.Rational) (col : Fin n) :
    candidate matrix potentials row (finite level) col =
      finite (level + reduced matrix potentials row col) := by
  rw [candidate, reduced, ExactCost.eq_finite_value (rational row col),
    ExactCost.eq_finite_value (prices.row row), ExactCost.eq_finite_value (prices.col col)]
  simp only [ExactCost.finite_add, ExactCost.finite_sub, ExactCost.value_finite]
  congr 1
  ring

/-- A search comes to a row at a distance: to the one it began at with none, and to the owner of a
settled column at the distance of the column. -/
def ReachesAt (search : Search ExactCost n) (matching : Matching n) (origin row : Fin n)
    (d : ℚ) : Prop :=
  (row = origin ∧ d = 0) ∨ ∃ col, search.visited.get col = true ∧
    matching.colOf.get row = some col ∧ search.distance.get col = finite d

/-- The distances of a search whose settled columns are no further than `level`. Paths have been
extended from all rows that have been reached but a pending one. -/
structure Measured (search : Search ExactCost n) (matrix : SquareMatrix ExactCost n)
    (potentials : Potentials ExactCost n) (matching : Matching n) (origin : Fin n) (level : ℚ)
    (pending : Option (Fin n)) : Prop where
  ne_bottom : ∀ col, search.distance.get col ≠ .bottom
  settled : ∀ col, search.visited.get col = true →
    ∃ d, d ≤ level ∧ search.distance.get col = finite d
  edge : ∀ col row, search.predecessor.get col = some row →
    ∃ d, search.ReachesAt matching origin row d ∧
      search.distance.get col = finite (d + reduced matrix potentials row col)
  relaxed : ∀ row d, search.ReachesAt matching origin row d → pending ≠ some row →
    ∀ col, ∃ e, search.distance.get col = finite e ∧ e ≤ d + reduced matrix potentials row col
  frontier : ∀ col d, search.visited.get col = false → search.distance.get col = finite d →
    level ≤ d

theorem Measured.blank : (blank ExactCost n).Measured matrix potentials matching origin 0
    (some origin) where
  ne_bottom := by simp [ExactCost.infinity_eq]
  settled := by simp
  edge := by simp
  relaxed := by
    rintro row d (⟨rfl, _⟩ | ⟨col, visited, _⟩) pending
    · contradiction
    · simp at visited
  frontier := by simp [ExactCost.infinity_eq]

theorem ReachesAt.unique {d e : ℚ} (free : matching.colOf.get origin = none)
    (first : search.ReachesAt matching origin row d)
    (second : search.ReachesAt matching origin row e) : d = e := by
  rcases first with ⟨isOrigin, rfl⟩ | ⟨col, _, owned, distance⟩ <;>
    rcases second with ⟨isOrigin', rfl⟩ | ⟨col', _, owned', distance'⟩
  · rfl
  · rw [isOrigin, free] at owned'
    contradiction
  · rw [isOrigin', free] at owned
    contradiction
  · obtain rfl := Option.some.inj (owned.symm.trans owned')
    exact ExactCost.finite.inj (distance.symm.trans distance')

namespace Settles

variable (round : Settles matrix potentials before row (finite level) col after)

include round

theorem reachesAt_mono {other : Fin n} {d : ℚ}
    (reaches : before.ReachesAt matching origin other d) :
    after.ReachesAt matching origin other d := by
  rcases reaches with isOrigin | ⟨owned, visited, paired, distance⟩
  · exact .inl isOrigin
  · exact .inr ⟨owned, round.visited_mono visited, paired,
      (round.distance_of_visited visited).trans distance⟩

/-- Only the owner of the settled column is reached anew. -/
theorem reachesAt_of_after (consistent : matching.Consistent) {other : Fin n} {d : ℚ}
    (reaches : after.ReachesAt matching origin other d)
    (notOwner : matching.rowOf.get col ≠ some other) :
    before.ReachesAt matching origin other d := by
  rcases reaches with isOrigin | ⟨owned, visited, paired, distance⟩
  · exact .inl isOrigin
  · rcases (round.visited_iff owned).mp visited with old | rfl
    · exact .inr ⟨owned, old, paired, (round.distance_of_visited old).symm.trans distance⟩
    · exact absurd ((consistent other owned).mp paired) notOwner

/-- Every column that is not settled is as near as its known path and the new one. -/
theorem distance_of_unvisited (rational : matrix.Rational) (prices : potentials.Rational)
    (measured : before.Measured matrix potentials matching origin level (some row))
    {other : Fin n} (unsettled : before.visited.get other = false) :
    ∃ e, after.distance.get other = finite e ∧
      e ≤ level + reduced matrix potentials row other ∧
      (∀ d, before.distance.get other = finite d → e ≤ d) ∧
      (e = level + reduced matrix potentials row other ∨ level ≤ e) := by
  rcases round.label other with ⟨_, shorter, distance, _⟩ | ⟨longer, distance, _⟩
  · rw [candidate_eq rational prices] at shorter distance
    refine ⟨_, distance, le_rfl, fun d known => ?_, .inl rfl⟩
    rw [known, ExactCost.finite_lt_finite] at shorter
    exact shorter.le
  · have longer := longer.resolve_left (by simp [unsettled])
    rw [candidate_eq rational prices] at longer
    cases known : before.distance.get other with
    | bottom => exact absurd known (measured.ne_bottom other)
    | finite d =>
      rw [known, ExactCost.finite_lt_finite, not_lt] at longer
      refine ⟨d, distance.trans known, longer, fun d' same => ?_, .inr ?_⟩
      · exact (ExactCost.finite.inj same).le
      · exact measured.frontier other d unsettled known
    | top =>
      rw [known] at longer
      exact absurd (ExactCost.finite_lt_top _) longer

/-- A column that is still open lies no nearer than the one that has been settled. -/
theorem le_of_unvisited {other : Fin n} {next d : ℚ} (distance : after.distance.get col = finite next)
    (unsettled : after.visited.get other = false) (known : after.distance.get other = finite d) :
    next ≤ d := by
  have unsettledBefore : before.visited.get other = false := by
    by_contra visited
    rw [Bool.not_eq_false] at visited
    simp [round.visited_mono visited] at unsettled
  have unsettledRelaxed : (before.relax matrix potentials row (finite level)).visited.get other =
      false := by rwa [relax_visited]
  have least := not_lt_of_nearest? round.nearest unsettledRelaxed
  rw [round.after_eq, settle_distance] at known distance
  rwa [known, distance, ExactCost.finite_lt_finite, not_lt] at least

/-- The rows that a search comes to after its first have no negative reduced costs, so the level
never falls. -/
theorem level_le (rational : matrix.Rational) (prices : potentials.Rational)
    (measured : before.Measured matrix potentials matching origin level (some row))
    (nonneg : ∀ other, 0 ≤ reduced matrix potentials row other) {next : ℚ}
    (distance : after.distance.get col = finite next) : level ≤ next := by
  obtain ⟨next', distance', _, _, source⟩ :=
    round.distance_of_unvisited rational prices measured round.fresh
  obtain rfl := ExactCost.finite.inj (distance.symm.trans distance')
  rcases source with rfl | above
  · linarith [nonneg col]
  · exact above

/-- A path is extended from the pending row as from all rows before it. -/
theorem relaxed_after (rational : matrix.Rational) (prices : potentials.Rational)
    (free : matching.colOf.get origin = none)
    (measured : before.Measured matrix potentials matching origin level (some row))
    (reaches : before.ReachesAt matching origin row level)
    (nonneg : ∀ other, before.visited.get other = true → 0 ≤ reduced matrix potentials row other)
    {via : Fin n} {d : ℚ} (reachesBefore : before.ReachesAt matching origin via d)
    (other : Fin n) :
    ∃ e, after.distance.get other = finite e ∧ e ≤ d + reduced matrix potentials via other := by
  cases visited : before.visited.get other with
  | true =>
    obtain ⟨e, bound, known⟩ := measured.settled other visited
    have unchanged := round.distance_of_visited visited
    rcases eq_or_ne row via with rfl | different
    · obtain rfl := reachesBefore.unique free reaches
      refine ⟨e, unchanged.trans known, ?_⟩
      linarith [nonneg other visited]
    · obtain ⟨e', known', relaxed⟩ := measured.relaxed via d reachesBefore (by simpa) other
      exact ⟨e', unchanged.trans known', relaxed⟩
  | false =>
    obtain ⟨e, known, viaRow, improves, _⟩ :=
      round.distance_of_unvisited rational prices measured visited
    refine ⟨e, known, ?_⟩
    rcases eq_or_ne row via with rfl | different
    · obtain rfl := reachesBefore.unique free reaches
      exact viaRow
    · obtain ⟨e', known', relaxed⟩ := measured.relaxed via d reachesBefore (by simpa) other
      exact (improves e' known').trans relaxed

/-- A round keeps the distances measured, up to the distance of the column that it settles. -/
theorem measured (rational : matrix.Rational) (prices : potentials.Rational)
    (consistent : matching.Consistent) (free : matching.colOf.get origin = none)
    (measured : before.Measured matrix potentials matching origin level (some row))
    (reaches : before.ReachesAt matching origin row level)
    (nonneg : (∀ other, before.visited.get other = false) ∨
      ∀ other, 0 ≤ reduced matrix potentials row other) :
    ∃ next, after.distance.get col = finite next ∧
      after.Measured matrix potentials matching origin next (matching.rowOf.get col) := by
  obtain ⟨next, distance, _⟩ := round.distance_of_unvisited rational prices measured round.fresh
  -- The row where the search begins may have negative reduced costs, but then nothing is settled.
  have nonneg' : ∀ other, before.visited.get other = true →
      ∀ other, 0 ≤ reduced matrix potentials row other := fun other visited =>
    nonneg.resolve_left fun none => by simp [none other] at visited
  refine ⟨next, distance, ⟨fun other => ?_, ?_, ?_, ?_, ?_⟩⟩
  · rcases round.label other with ⟨_, _, candidate, _⟩ | ⟨_, unchanged, _⟩
    · rw [candidate, candidate_eq rational prices]
      exact ExactCost.noConfusion
    · rw [unchanged]
      exact measured.ne_bottom other
  · intro other visited
    rcases (round.visited_iff other).mp visited with old | rfl
    · obtain ⟨d, bound, known⟩ := measured.settled other old
      have rises := round.level_le rational prices measured (nonneg' other old) distance
      exact ⟨d, bound.trans rises, (round.distance_of_visited old).trans known⟩
    · exact ⟨next, le_rfl, distance⟩
  · intro other via predecessor
    rcases round.label other with ⟨_, _, candidate, new⟩ | ⟨_, unchanged, old⟩
    · obtain rfl := Option.some.inj (new.symm.trans predecessor)
      rw [candidate_eq rational prices] at candidate
      exact ⟨level, round.reachesAt_mono reaches, candidate⟩
    · obtain ⟨d, reaches', known⟩ := measured.edge other via (old.symm.trans predecessor)
      exact ⟨d, round.reachesAt_mono reaches', unchanged.trans known⟩
  · intro via d reachesAfter notOwner other
    exact round.relaxed_after rational prices free measured reaches
      (fun other visited => nonneg' other visited other)
      (round.reachesAt_of_after consistent reachesAfter notOwner) other
  · intro other d unsettled known
    exact round.le_of_unvisited distance unsettled known

end Settles

/-- Where some column is open, the next round settles a column. -/
theorem Measured.exists_settles (rational : matrix.Rational) (prices : potentials.Rational)
    {pending : Option (Fin n)} {spare : Fin n}
    (measured : search.Measured matrix potentials matching origin level pending)
    (unvisited : search.visited.get spare = false) (row : Fin n) :
    ∃ col after, Settles matrix potentials search row (finite level) col after := by
  have relaxed : ∃ d, (search.relax matrix potentials row (finite level)).distance.get spare =
      finite d := by
    rw [relax_distance, candidate_eq rational prices]
    split_ifs with improves
    · exact ⟨_, rfl⟩
    · cases known : search.distance.get spare with
      | bottom => exact absurd known (measured.ne_bottom spare)
      | finite d => exact ⟨d, rfl⟩
      | top => simp [Search.improves, unvisited, known] at improves
  obtain ⟨d, distance⟩ := relaxed
  have unvisited' : (search.relax matrix potentials row (finite level)).visited.get spare =
      false := by rwa [relax_visited]
  obtain ⟨col, nearest⟩ := Option.ne_none_iff_exists'.mp (nearest?_ne_none unvisited' distance)
  refine ⟨col, _, nearest, ?_, rfl⟩
  have least := not_lt_of_nearest? nearest unvisited'
  cases known : (search.relax matrix potentials row (finite level)).distance.get col with
  | bottom =>
    rw [relax_distance, candidate_eq rational prices] at known
    split_ifs at known
    exact absurd known (measured.ne_bottom col)
  | finite e => rfl
  | top =>
    rw [known, distance] at least
    exact absurd (ExactCost.finite_lt_top d) least

/-! ## The whole search -/

section

variable (rational : matrix.Rational) (prices : potentials.Rational)
  (consistent : matching.Consistent) (free : matching.colOf.get origin = none)
  (feasible : ∀ row col, matching.colOf.get row ≠ none → 0 ≤ reduced matrix potentials row col)

include rational prices consistent free feasible

/-- In every state between two rounds the distances are measured up to the row to go on from. -/
theorem Reachable.measured {unsettled : Nat}
    (reachable : Reachable matrix potentials matching origin unsettled search row reached) :
    ∃ level, reached = finite level ∧
      search.Measured matrix potentials matching origin level (some row) ∧
      search.ReachesAt matching origin row level ∧
      ((∀ other, search.visited.get other = false) ∨
        ∀ other, 0 ≤ reduced matrix potentials row other) := by
  induction reachable with
  | start => exact ⟨0, ExactCost.ofNat_zero, .blank, .inl ⟨rfl, rfl⟩, .inl blank_visited⟩
  | @round _ before after row col owner reached _ settles owned ih =>
    obtain ⟨level, rfl, measured, reaches, nonneg⟩ := ih
    obtain ⟨next, distance, measured'⟩ :=
      settles.measured rational prices consistent free measured reaches nonneg
    have paired := (consistent owner col).mpr owned
    refine ⟨next, distance, owned ▸ measured', .inr ⟨col, ?_, paired, distance⟩, .inr ?_⟩
    · exact (settles.visited_iff col).mpr (.inr rfl)
    · exact fun other => feasible owner other (by simp [paired])

/-- Before a free column is settled there is always a round left, and it settles a column. -/
theorem Reachable.exists_round {unsettled : Nat}
    (reachable : Reachable matrix potentials matching origin unsettled search row reached) :
    unsettled ≠ 0 ∧ ∃ col after, Settles matrix potentials search row reached col after := by
  obtain ⟨level, rfl, measured, _⟩ := reachable.measured rational prices consistent free feasible
  obtain ⟨left, spare, unvisited, _⟩ := reachable.exists_unsettled consistent free
  exact ⟨left, measured.exists_settles rational prices unvisited row⟩

/-- A search from a free row always ends at a free column, and then no path over a row that it has
reached is shorter than what it knows. -/
theorem exists_fromRow (scratch : Search ExactCost n) :
    ∃ final sink length,
      fromRow matrix potentials matching scratch origin = (final, some sink) ∧
      final.distance.get sink = finite length ∧
      final.Measured matrix potentials matching origin length none := by
  have ends := fromRow_ends matrix potentials matching scratch origin
  rcases outcome : fromRow matrix potentials matching scratch origin with ⟨final, _ | sink⟩
  · rw [outcome] at ends
    obtain ⟨unsettled, before, row, reached, reachable, stuck⟩ := ends
    obtain ⟨left, col, after, round⟩ :=
      reachable.exists_round rational prices consistent free feasible
    rcases stuck with none | stuck
    · exact absurd none left
    · exact absurd round (stuck col after)
  · rw [outcome] at ends
    obtain ⟨unsettled, before, row, reached, reachable, round, freeSink⟩ := ends
    obtain ⟨level, rfl, measured, reaches, nonneg⟩ :=
      reachable.measured rational prices consistent free feasible
    obtain ⟨length, distance, measured'⟩ :=
      round.measured rational prices consistent free measured reaches nonneg
    exact ⟨final, sink, length, rfl, distance, freeSink ▸ measured'⟩

end

end Search

end LinearAssignment
