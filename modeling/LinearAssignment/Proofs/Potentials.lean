import LinearAssignment.Augmentation
import LinearAssignment.Proofs.Search.Shortest

/-! # Shifting the potentials

After a search the potentials of the rows and columns that it came to are shifted by what they lie
below the end of its path. No reduced cost of a row that was feasible becomes negative, the row
where the search began becomes feasible, and the pairs of the path become tight. Potentials of
columns only fall, and those of free columns do not change.
-/

namespace LinearAssignment

open ExactCost (finite)

variable {n : Nat} {matrix : SquareMatrix ExactCost n} {potentials : Potentials ExactCost n}
  {matching : Matching n} {search : Search ExactCost n} {origin sink row col : Fin n}
  {length : ℚ}

theorem Search.ReachesAt.reaches {d : ℚ} (reaches : search.ReachesAt matching origin row d) :
    search.Reaches matching origin row := by
  rcases reaches with ⟨isOrigin, _⟩ | ⟨col, visited, owned, _⟩
  · exact .inl isOrigin
  · exact .inr ⟨col, visited, owned⟩

theorem Potentials.shifted_row {κ : Type} [CostNumber κ] (potentials : Potentials κ n)
    (search : Search κ n) (matching : Matching n) (origin sink row : Fin n) :
    (potentials.shifted search matching origin sink).row.get row =
      if row = origin then potentials.row.get row + search.distance.get sink
      else match matching.colOf.get row with
        | some col =>
          if search.shifts sink col then potentials.row.get row + search.slack sink col
          else potentials.row.get row
        | none => potentials.row.get row :=
  Vector.getElem_ofFn row.isLt

theorem Potentials.shifted_col {κ : Type} [CostNumber κ] (potentials : Potentials κ n)
    (search : Search κ n) (matching : Matching n) (origin sink col : Fin n) :
    (potentials.shifted search matching origin sink).col.get col =
      if search.shifts sink col then potentials.col.get col - search.slack sink col
      else potentials.col.get col :=
  Vector.getElem_ofFn col.isLt

theorem Potentials.shifted_row_origin {κ : Type} [CostNumber κ] (potentials : Potentials κ n)
    (search : Search κ n) (matching : Matching n) (origin sink : Fin n) :
    (potentials.shifted search matching origin sink).row.get origin =
      potentials.row.get origin + search.distance.get sink := by
  rw [shifted_row, if_pos rfl]

theorem Potentials.shifted_row_owner {κ : Type} [CostNumber κ] (potentials : Potentials κ n)
    {search : Search κ n} (notOrigin : row ≠ origin) (owned : matching.colOf.get row = some col)
    (shifts : search.shifts sink col = true) :
    (potentials.shifted search matching origin sink).row.get row =
      potentials.row.get row + search.slack sink col := by
  rw [shifted_row, if_neg notOrigin, owned]
  exact if_pos shifts

theorem Potentials.shifted_col_of_shifts {κ : Type} [CostNumber κ] (potentials : Potentials κ n)
    {search : Search κ n} (shifts : search.shifts sink col = true) :
    (potentials.shifted search matching origin sink).col.get col =
      potentials.col.get col - search.slack sink col := by
  rw [shifted_col, if_pos shifts]

/-- The end of the path keeps its potential. -/
theorem Potentials.shifted_col_sink {κ : Type} [CostNumber κ] (potentials : Potentials κ n)
    (search : Search κ n) (matching : Matching n) (origin sink : Fin n) :
    (potentials.shifted search matching origin sink).col.get sink = potentials.col.get sink := by
  rw [shifted_col, if_neg (by simp [Search.shifts])]

/-- A row that is not reached keeps its potential. -/
theorem Potentials.shifted_row_of_not_reaches {κ : Type} [CostNumber κ]
    (potentials : Potentials κ n) (search : Search κ n)
    (unreached : ¬ search.Reaches matching origin row) :
    (potentials.shifted search matching origin sink).row.get row = potentials.row.get row := by
  rw [shifted_row, if_neg fun isOrigin => unreached (.inl isOrigin)]
  cases owned : matching.colOf.get row with
  | none => simp
  | some col =>
    have unsettled : search.visited.get col = false := by
      by_contra visited
      exact unreached (.inr ⟨col, by simpa using visited, owned⟩)
    simp [Search.shifts, unsettled]

/-- So does a row that stays free. -/
theorem Potentials.shifted_row_of_free {κ : Type} [CostNumber κ] (potentials : Potentials κ n)
    (search : Search κ n) (free : matching.colOf.get row = none) (notOrigin : row ≠ origin) :
    (potentials.shifted search matching origin sink).row.get row = potentials.row.get row := by
  rw [shifted_row, if_neg notOrigin, free]

/-- A column that is not settled keeps its potential. -/
theorem Potentials.shifted_col_of_unvisited {κ : Type} [CostNumber κ]
    (potentials : Potentials κ n) (search : Search κ n)
    (unsettled : search.visited.get col = false) :
    (potentials.shifted search matching origin sink).col.get col = potentials.col.get col := by
  simp [shifted_col, Search.shifts, unsettled]

/-- A search that has ended at a free column, with its distances. -/
structure Search.Ended (search : Search ExactCost n) (matrix : SquareMatrix ExactCost n)
    (potentials : Potentials ExactCost n) (matching : Matching n) (origin sink : Fin n)
    (length : ℚ) : Prop where
  measured : search.Measured matrix potentials matching origin length none
  distance : search.distance.get sink = finite length
  visited : search.visited.get sink = true
  free : matching.colOf.get origin = none
  freeSink : matching.rowOf.get sink = none
  consistent : matching.Consistent
  prices : potentials.Rational

namespace Search.Ended

variable (ended : search.Ended matrix potentials matching origin sink length)

include ended

theorem ne_sink (owned : matching.colOf.get row = some col) : col ≠ sink := by
  rintro rfl
  have owner := (ended.consistent row col).mp owned
  rw [ended.freeSink] at owner
  contradiction

theorem reaches_iff : search.Reaches matching origin row ↔
    ∃ d, search.ReachesAt matching origin row d := by
  constructor
  · rintro (isOrigin | ⟨col, visited, owned⟩)
    · exact ⟨0, .inl ⟨isOrigin, rfl⟩⟩
    · obtain ⟨d, _, distance⟩ := ended.measured.settled col visited
      exact ⟨d, .inr ⟨col, visited, owned, distance⟩⟩
  · rintro ⟨d, reaches⟩
    exact reaches.reaches

/-- A row that is reached rises by what it lies below the end of the path. -/
theorem shifted_row_of_reachesAt {d : ℚ} (reaches : search.ReachesAt matching origin row d) :
    (potentials.shifted search matching origin sink).row.get row =
      finite ((potentials.row.get row).value + (length - d)) := by
  refine (Vector.getElem_ofFn row.isLt).trans ?_
  rcases reaches with ⟨isOrigin, rfl⟩ | ⟨col, visited, owned, distance⟩
  · subst isOrigin
    rw [if_pos rfl, ExactCost.eq_finite_value (ended.prices.row row), ended.distance]
    simp
  · have notOrigin : row ≠ origin := by
      rintro rfl
      rw [ended.free] at owned
      contradiction
    have shifts : search.shifts sink col = true := by
      simp [Search.shifts, visited, ended.ne_sink owned]
    rw [if_neg notOrigin]
    simp only [Fin.eta, owned, shifts, if_true, slack, distance, ended.distance]
    rw [ExactCost.eq_finite_value (ended.prices.row row)]
    simp

/-- A settled column falls by what it lies below the end of the path, which is settled too. -/
theorem shifted_col_of_visited {d : ℚ} (visited : search.visited.get col = true)
    (distance : search.distance.get col = finite d) :
    (potentials.shifted search matching origin sink).col.get col =
      finite ((potentials.col.get col).value - (length - d)) := by
  refine (Vector.getElem_ofFn col.isLt).trans ?_
  rcases eq_or_ne col sink with rfl | notSink
  · obtain rfl := ExactCost.finite.inj (distance.symm.trans ended.distance)
    rw [if_neg (by simp [Search.shifts])]
    simpa using ExactCost.eq_finite_value (ended.prices.col col)
  · rw [if_pos (by simp [Search.shifts, visited, notSink]), slack, distance, ended.distance]
    rw [ExactCost.eq_finite_value (ended.prices.col col)]
    simp

/-- Shifted potentials are rational. -/
theorem rational_shifted : (potentials.shifted search matching origin sink).Rational where
  row row := by
    by_cases reaches : search.Reaches matching origin row
    · obtain ⟨d, reaches⟩ := ended.reaches_iff.mp reaches
      rw [ended.shifted_row_of_reachesAt reaches]
      rfl
    · rw [potentials.shifted_row_of_not_reaches search reaches]
      exact ended.prices.row row
  col col := by
    cases visited : search.visited.get col with
    | true =>
      obtain ⟨d, _, distance⟩ := ended.measured.settled col visited
      rw [ended.shifted_col_of_visited visited distance]
      rfl
    | false =>
      rw [potentials.shifted_col_of_unvisited search visited]
      exact ended.prices.col col

/-- Potentials of columns only fall. -/
theorem shifted_col_le (col : Fin n) :
    ((potentials.shifted search matching origin sink).col.get col).value ≤
      (potentials.col.get col).value := by
  cases visited : search.visited.get col with
  | true =>
    obtain ⟨d, bound, distance⟩ := ended.measured.settled col visited
    rw [ended.shifted_col_of_visited visited distance, ExactCost.value_finite]
    linarith
  | false => rw [potentials.shifted_col_of_unvisited search visited]

/-- A row that is reached is feasible afterwards. -/
theorem reduced_shifted_of_reachesAt {d : ℚ}
    (reaches : search.ReachesAt matching origin row d) (col : Fin n) :
    0 ≤ reduced matrix (potentials.shifted search matching origin sink) row col := by
  obtain ⟨e, known, relaxed⟩ := ended.measured.relaxed row d reaches (by simp) col
  rw [reduced] at relaxed ⊢
  rw [ended.shifted_row_of_reachesAt reaches, ExactCost.value_finite]
  cases visited : search.visited.get col with
  | true =>
    rw [ended.shifted_col_of_visited visited known, ExactCost.value_finite]
    linarith
  | false =>
    rw [potentials.shifted_col_of_unvisited search visited]
    linarith [ended.measured.frontier col e visited known]

/-- A row that was feasible stays feasible, and the row where the search began becomes so. -/
theorem reduced_shifted_nonneg
    (feasible : row = origin ∨ ∀ col, 0 ≤ reduced matrix potentials row col) (col : Fin n) :
    0 ≤ reduced matrix (potentials.shifted search matching origin sink) row col := by
  by_cases reaches : search.Reaches matching origin row
  · obtain ⟨d, reaches⟩ := ended.reaches_iff.mp reaches
    exact ended.reduced_shifted_of_reachesAt reaches col
  · have nonneg := feasible.resolve_left (fun isOrigin => reaches (.inl isOrigin)) col
    rw [reduced] at nonneg ⊢
    rw [potentials.shifted_row_of_not_reaches search reaches]
    linarith [ended.shifted_col_le col]

/-- The pairs along the path of a search become tight. -/
theorem reduced_shifted_of_edge (visited : search.visited.get col = true)
    (predecessor : search.predecessor.get col = some row) :
    reduced matrix (potentials.shifted search matching origin sink) row col = 0 := by
  obtain ⟨d, reaches, distance⟩ := ended.measured.edge col row predecessor
  rw [reduced, ended.shifted_row_of_reachesAt reaches,
    ended.shifted_col_of_visited visited distance, reduced]
  simp only [ExactCost.value_finite]
  ring

/-- Matched pairs keep their reduced cost, because both sides shift by the same amount. -/
theorem reduced_shifted_of_owned (owned : matching.colOf.get row = some col) :
    reduced matrix (potentials.shifted search matching origin sink) row col =
      reduced matrix potentials row col := by
  cases visited : search.visited.get col with
  | true =>
    obtain ⟨d, _, distance⟩ := ended.measured.settled col visited
    rw [reduced, ended.shifted_row_of_reachesAt (.inr ⟨col, visited, owned, distance⟩),
      ended.shifted_col_of_visited visited distance, reduced]
    simp only [ExactCost.value_finite]
    ring
  | false =>
    have unreached : ¬ search.Reaches matching origin row := by
      rintro (rfl | ⟨other, settled, owned'⟩)
      · rw [ended.free] at owned
        contradiction
      · obtain rfl := Option.some.inj (owned.symm.trans owned')
        rw [visited] at settled
        contradiction
    rw [reduced, potentials.shifted_row_of_not_reaches search unreached,
      potentials.shifted_col_of_unvisited search visited, reduced]

end Search.Ended

end LinearAssignment
