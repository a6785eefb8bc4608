import LinearAssignment.Proofs.Optimality

/-! # How far potentials and distances range

In exact arithmetic nothing that a solve computes grows with the number of rows. Some column always
has potential zero, the end of the last path or any that is free, and there a matched row is worth
no more than its cost; no column has a positive potential, so at its own column it is worth no less.
So with costs of some size rows stay within that size, columns within twice the size, and every sum
on the way to a distance within six times.
-/

namespace LinearAssignment

open ExactCost (finite)

variable {n : Nat} {matrix : SquareMatrix ExactCost n} {potentials : Potentials ExactCost n}
  {matching : Matching n} {progress : Progress ExactCost n} {origin row col sink : Fin n}
  {size low high : ℚ}

/-! ## Costs of some size -/

namespace ExactCost

/-- A rational cost between two bounds. -/
def Between (low high : ℚ) : ExactCost → Prop
  | finite a => low ≤ a ∧ a ≤ high
  | _ => False

instance decidableBetween (low high : ℚ) : (a : ExactCost) → Decidable (a.Between low high)
  | finite a => inferInstanceAs (Decidable (low ≤ a ∧ a ≤ high))
  | bottom => isFalse id
  | top => isFalse id

variable {a : ExactCost}

theorem Between.isFinite (between : a.Between low high) : CostNumber.isFinite a = true := by
  cases a with
  | bottom => contradiction
  | finite a => rfl
  | top => contradiction

theorem between_iff (rational : CostNumber.isFinite a = true) :
    a.Between low high ↔ low ≤ a.value ∧ a.value ≤ high := by
  rw [eq_finite_value rational]
  exact Iff.rfl

theorem Between.value (between : a.Between low high) : low ≤ a.value ∧ a.value ≤ high :=
  (between_iff between.isFinite).mp between

theorem Between.mono (between : a.Between low high) {low' high' : ℚ} (lower : low' ≤ low)
    (higher : high ≤ high') : a.Between low' high' :=
  (between_iff between.isFinite).mpr
    ⟨lower.trans between.value.1, between.value.2.trans higher⟩

theorem between_zero (nonpos : low ≤ 0) (nonneg : 0 ≤ high) :
    (CostNumber.ofNat 0 : ExactCost).Between low high := by
  rw [ofNat_zero]
  exact ⟨nonpos, nonneg⟩

end ExactCost

/-- All costs of a square are of some size at most. -/
def SquareMatrix.Bounded (matrix : SquareMatrix ExactCost n) (size : ℚ) : Prop :=
  ∀ row col, (matrix.get row col).Between (-size) size

namespace SquareMatrix.Bounded

variable (bounded : matrix.Bounded size)

include bounded

theorem rational : matrix.Rational := fun row col => (bounded row col).isFinite

theorem value (row col : Fin n) :
    -size ≤ (matrix.get row col).value ∧ (matrix.get row col).value ≤ size :=
  (bounded row col).value

theorem nonneg (row : Fin n) : 0 ≤ size := by
  linarith [bounded.value row row]

end SquareMatrix.Bounded

/-! ## Potentials -/

/-- Potentials that price a matching and are held by the costs: a column has potential zero, and
free rows have what a start gave them. -/
structure Anchored (matrix : SquareMatrix ExactCost n) (potentials : Potentials ExactCost n)
    (matching : Matching n) (size : ℚ) : Prop extends Priced matrix potentials matching where
  exists_zero : 0 < n → ∃ col, (potentials.col.get col).value = 0
  row_free : ∀ row, matching.colOf.get row = none →
    (potentials.row.get row).Between (-size) size
  row_free_le : ∀ row col, matching.colOf.get row = none →
    (potentials.row.get row).value ≤ (matrix.get row col).value + size

namespace Anchored

variable (anchored : Anchored matrix potentials matching size) (bounded : matrix.Bounded size)

include anchored bounded

/-- The potential of a row is held from above where a column has potential zero, and from below at
its own column. -/
theorem between_row (row : Fin n) : (potentials.row.get row).Between (-size) size := by
  cases paired : matching.colOf.get row with
  | none => exact anchored.row_free row paired
  | some own =>
    obtain ⟨zero, vanishes⟩ := anchored.exists_zero row.pos
    have feasible := anchored.feasible row zero (by simp [paired])
    have tight := anchored.tight row own paired
    rw [reduced] at feasible tight
    rw [ExactCost.between_iff (anchored.rational.row row)]
    constructor
    · linarith [bounded.value row own, anchored.col_nonpos own]
    · linarith [bounded.value row zero]

theorem between_col (col : Fin n) : (potentials.col.get col).Between (-(2 * size)) 0 := by
  rw [ExactCost.between_iff (anchored.rational.col col)]
  refine ⟨?_, anchored.col_nonpos col⟩
  cases owned : matching.rowOf.get col with
  | none => linarith [anchored.col_free col owned, bounded.nonneg col]
  | some owner =>
    have tight := anchored.tight owner col ((anchored.consistent owner col).mpr owned)
    rw [reduced] at tight
    linarith [bounded.value owner col, (anchored.between_row bounded owner).value]

omit bounded in
theorem neg_le_reduced (free : matching.colOf.get row = none) (col : Fin n) :
    -size ≤ reduced matrix potentials row col := by
  rw [reduced]
  linarith [anchored.row_free_le row col free, anchored.col_nonpos col]

end Anchored

/-! ## Distances -/

namespace Search

/-- The sums by which the length of a path is computed that is extended to a column; the last one is
the length. -/
def partialLengths {κ : Type} [CostNumber κ] (matrix : SquareMatrix κ n)
    (potentials : Potentials κ n) (row : Fin n) (reached : κ) (col : Fin n) : List κ :=
  [reached + matrix.get row col, reached + matrix.get row col - potentials.row.get row,
    candidate matrix potentials row reached col]

variable {search before after : Search ExactCost n} {reached : ExactCost} {unsettled : Nat}

theorem between_partialLengths (anchored : Anchored matrix potentials matching size)
    (bounded : matrix.Bounded size) (between : reached.Between (-size) (2 * size))
    (row col : Fin n) :
    ∀ length ∈ partialLengths matrix potentials row reached col,
      length.Between (-(6 * size)) (6 * size) := by
  have cost := bounded.value row col
  have price := (anchored.between_row bounded row).value
  have price' := (anchored.between_col bounded col).value
  have level := between.value
  rw [partialLengths, candidate, ExactCost.eq_finite_value (bounded row col).isFinite,
    ExactCost.eq_finite_value (anchored.rational.row row),
    ExactCost.eq_finite_value (anchored.rational.col col),
    ExactCost.eq_finite_value between.isFinite]
  simp only [ExactCost.finite_add, ExactCost.finite_sub, List.forall_mem_cons, ExactCost.Between]
  refine ⟨⟨?_, ?_⟩, ⟨?_, ?_⟩, ⟨?_, ?_⟩, fun _ none => absurd none List.not_mem_nil⟩ <;> linarith

section

variable (anchored : Anchored matrix potentials matching size) (bounded : matrix.Bounded size)
  (free : matching.colOf.get origin = none)

include anchored bounded free

/-- The column that is settled next lies no nearer than the row it is reached from, unless that is
the first, and no further than a free column lies from the first row. -/
theorem Settles.between_distance
    (reachable : Reachable matrix potentials matching origin unsettled before row reached)
    (between : reached.Between (-size) (2 * size))
    (round : Settles matrix potentials before row reached col after) :
    (after.distance.get col).Between (-size) (2 * size) := by
  have rational := bounded.rational
  obtain ⟨level, rfl, measured, reaches, nonneg⟩ := reachable.measured rational
    anchored.rational anchored.consistent free anchored.feasible
  obtain ⟨next, distance, _, _, source⟩ :=
    round.distance_of_unvisited rational anchored.rational measured round.fresh
  rw [distance]
  constructor
  · rcases source with rfl | above
    · rcases nonneg with none | nonneg
      -- Nothing has been settled, so the row is the one where the search began, at distance zero.
      · rcases reaches with ⟨rfl, rfl⟩ | ⟨settled, visited, _⟩
        · linarith [anchored.neg_le_reduced free col]
        · simp [none settled] at visited
      · linarith [between.value.1, ExactCost.value_finite level, nonneg col]
    · linarith [between.value.1, ExactCost.value_finite level]
  -- A free column is open throughout and no further than its cost beyond the potential of `origin`.
  · obtain ⟨_, spare, unvisited, freeCol⟩ := reachable.exists_unsettled anchored.consistent free
    obtain ⟨far, known, bound⟩ := round.relaxed_after rational anchored.rational free measured
      reaches (fun other visited => nonneg.elim (fun none => by simp [none other] at visited)
        fun nonneg => nonneg other) (.inl ⟨rfl, rfl⟩) spare
    have near : next ≤ far := by
      rcases eq_or_ne spare col with rfl | other
      · rw [ExactCost.finite.inj (distance.symm.trans known)]
      · refine round.le_of_unvisited distance ?_ known
        rw [← Bool.not_eq_true, round.visited_iff, unvisited]
        simpa using other
    rw [reduced] at bound
    linarith [bounded.value origin spare, (anchored.between_row bounded origin).value,
      anchored.col_free spare freeCol]

/-- So it is in every round of a search. -/
theorem Reachable.between_reached
    (reachable : Reachable matrix potentials matching origin unsettled search row reached) :
    reached.Between (-size) (2 * size) := by
  induction reachable with
  | start =>
    have nonneg := bounded.nonneg origin
    exact ExactCost.between_zero (by linarith) (by linarith)
  | round reachable settles _ ih =>
    exact settles.between_distance anchored bounded free reachable ih

end

end Search

/-! ## Augmentations -/

section

variable {search scratch : Search ExactCost n} {length : ℚ}

/-- An augmentation keeps potentials anchored, from now on where its path ends. -/
theorem Anchored.shifted (anchored : Anchored matrix potentials matching size)
    (found : Search.fromRow matrix potentials matching scratch row = (search, some sink))
    (ended : search.Ended matrix potentials matching row sink length) :
    Anchored matrix (potentials.shifted search matching row sink)
      (matching.assignAll (search.path matching row sink)) size := by
  have grows := Matching.grows_assignAll_path anchored.consistent ended.free found
  refine ⟨anchored.toPriced.shifted found ended, fun _ => ⟨sink, ?_⟩, fun other free => ?_,
    fun other col free => ?_⟩
  · rw [potentials.shifted_col_sink]
    exact anchored.col_free sink ended.freeSink
  · obtain ⟨before, notOrigin⟩ := (grows.colOf_eq_none_iff other).mp free
    rw [potentials.shifted_row_of_free search before notOrigin]
    exact anchored.row_free other before
  · obtain ⟨before, notOrigin⟩ := (grows.colOf_eq_none_iff other).mp free
    rw [potentials.shifted_row_of_free search before notOrigin]
    exact anchored.row_free_le other col before

/-- What a settled column falls by is bounded, since its potential is before and after. -/
theorem Anchored.between_slack (anchored : Anchored matrix potentials matching size)
    (bounded : matrix.Bounded size)
    (found : Search.fromRow matrix potentials matching scratch row = (search, some sink))
    (ended : search.Ended matrix potentials matching row sink length)
    (visited : search.visited.get col = true) :
    (search.slack sink col).Between (-(2 * size)) (2 * size) := by
  obtain ⟨near, _, distance⟩ := ended.measured.settled col visited
  have before := (anchored.between_col bounded col).value
  have after := ((anchored.shifted found ended).between_col bounded col).value
  rw [ended.shifted_col_of_visited visited distance, ExactCost.value_finite] at after
  rw [Search.slack, ended.distance, distance, ExactCost.finite_sub]
  exact ⟨by linarith, by linarith⟩

end

namespace Progress

/-- The potentials of a solve under way are anchored. -/
def IsAnchored (progress : Progress ExactCost n) (matrix : SquareMatrix ExactCost n)
    (size : ℚ) : Prop :=
  Anchored matrix progress.scratch.potentials progress.scratch.matching size

/-- Reduced rows are anchored by their smallest costs, others by zero. -/
theorem Reduced.isAnchored {done : List (Fin n)} (reduced : progress.Reduced matrix done)
    (bounded : matrix.Bounded size) : progress.IsAnchored matrix size := by
  refine ⟨reduced.isPriced bounded.rational, fun positive => ⟨⟨0, positive⟩, ?_⟩, fun row _ => ?_,
    fun row col _ => ?_⟩
  · rw [reduced.col_eq, ExactCost.ofNat_zero, ExactCost.value_finite]
  · obtain ⟨best, minimum, _⟩ := exists_rowMinimum bounded.rational row
    have nonneg := bounded.nonneg row
    rw [reduced.row_eq, minimum]
    split_ifs
    · exact bounded row best
    · exact ExactCost.between_zero (by linarith) nonneg
  · obtain ⟨best, minimum, least⟩ := exists_rowMinimum bounded.rational row
    rw [reduced.row_eq, minimum]
    split_ifs
    · linarith [least col, bounded.nonneg row]
    · rw [ExactCost.ofNat_zero, ExactCost.value_finite]
      linarith [bounded.value row col]

theorem IsAnchored.augment (anchored : progress.IsAnchored matrix size)
    (bounded : matrix.Bounded size) (free : progress.scratch.matching.colOf.get row = none) :
    ∃ next, progress.augment matrix row = (true, next) ∧ next.IsAnchored matrix size := by
  obtain ⟨search, sink, length, found, ended⟩ :=
    anchored.exists_ended bounded.rational free progress.scratch.search
  exact ⟨_, augment_of_found found, anchored.shifted found ended⟩

theorem IsAnchored.augmentAll (bounded : matrix.Bounded size) (rows : List (Fin n))
    (anchored : progress.IsAnchored matrix size) :
    ∃ final, progress.augmentAll matrix rows = (none, final) ∧ final.IsAnchored matrix size :=
  augmentAll_of_step (fun anchored free => IsAnchored.augment anchored bounded free) rows anchored

/-- What a solve computes from costs of some size: its potentials, the distances at which its next
search would settle columns, and the sums by which it would compute them. -/
structure InRange (progress : Progress ExactCost n) (matrix : SquareMatrix ExactCost n)
    (size : ℚ) : Prop where
  row : ∀ row, (progress.scratch.potentials.row.get row).Between (-size) size
  col : ∀ col, (progress.scratch.potentials.col.get col).Between (-(2 * size)) 0
  settled : ∀ {origin row col unsettled before reached after},
    progress.scratch.matching.colOf.get origin = none →
    Search.Reachable matrix progress.scratch.potentials progress.scratch.matching origin unsettled
      before row reached →
    Search.Settles matrix progress.scratch.potentials before row reached col after →
    (after.distance.get col).Between (-size) (2 * size)
  partialLengths : ∀ {origin row unsettled search reached},
    progress.scratch.matching.colOf.get origin = none →
    Search.Reachable matrix progress.scratch.potentials progress.scratch.matching origin unsettled
      search row reached →
    ∀ col, ∀ length ∈ Search.partialLengths matrix progress.scratch.potentials row reached col,
      length.Between (-(6 * size)) (6 * size)

theorem IsAnchored.inRange (anchored : progress.IsAnchored matrix size)
    (bounded : matrix.Bounded size) : progress.InRange matrix size where
  row := Anchored.between_row anchored bounded
  col := Anchored.between_col anchored bounded
  settled free reachable round := round.between_distance anchored bounded free reachable
    (reachable.between_reached anchored bounded free)
  partialLengths free reachable := Search.between_partialLengths anchored bounded
    (reachable.between_reached anchored bounded free) _

end Progress

end LinearAssignment
