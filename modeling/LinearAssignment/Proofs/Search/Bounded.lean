import LinearAssignment.Proofs.Cost.Rounding
import LinearAssignment.Proofs.Search.Path

/-! # Searches that stay in range

In rounded arithmetic a search strands a row only if its distances overflow. Reduced costs may be
negative there, so that distances need not grow along a path; but they cannot grow fast either. A
matched pair is tight up to what rounding has added, so that going on from a column to its row and
from there to another column changes the distance together with the potential of the column by two
costs and a few errors. After as many rounds as there are columns that is far from the range, if the
costs are.
-/

namespace LinearAssignment

open CostNumber (infinity isFinite ofNat)
open RoundedCost (value range error)

variable {κ : Type} [CostNumber κ] [RoundedCost κ] {n : Nat}

/-- All costs of a square are finite and at most of some size. -/
structure SquareMatrix.Moderate (matrix : SquareMatrix κ n) (size : ℚ) : Prop where
  finite : ∀ row col, isFinite (matrix.get row col) = true
  abs_le : ∀ row col, |value (matrix.get row col)| ≤ size

/-- Finite potentials under which matched pairs are tight up to some slack: those of free rows have
at most the size of a cost, those of free columns are zero, and those of other columns have some
height at most. -/
structure Potentials.Moderate (potentials : Potentials κ n) (matrix : SquareMatrix κ n)
    (matching : Matching n) (size slack height : ℚ) : Prop where
  finite_row : ∀ row, isFinite (potentials.row.get row) = true
  finite_col : ∀ col, isFinite (potentials.col.get col) = true
  free_row : ∀ row, matching.colOf.get row = none → |value (potentials.row.get row)| ≤ size
  free_col : ∀ col, matching.rowOf.get col = none → value (potentials.col.get col) = 0
  abs_col : ∀ col, |value (potentials.col.get col)| ≤ height
  tight : ∀ row col, matching.colOf.get row = some col →
    |value (matrix.get row col) - value (potentials.row.get row) -
      value (potentials.col.get col)| ≤ slack

theorem Potentials.Moderate.mono {potentials : Potentials κ n} {matrix : SquareMatrix κ n}
    {matching : Matching n} {size slack wider height : ℚ}
    (prices : potentials.Moderate matrix matching size slack height) (wide : slack ≤ wider) :
    potentials.Moderate matrix matching size wider height :=
  { prices with tight := fun row col owned => (prices.tight row col owned).trans wide }

namespace Search

variable {matrix : SquareMatrix κ n} {potentials : Potentials κ n} {matching : Matching n}
  {search before after : Search κ n} {origin row col : Fin n} {reached : κ}
  {size slack height spread : ℚ}

/-- The distance at which a search has come to a row. -/
def ComesTo (search : Search κ n) (matching : Matching n) (origin row : Fin n) (reached : κ) :
    Prop :=
  row = origin ∧ reached = ofNat 0 ∨
    ∃ col, search.visited.get col = true ∧ matching.colOf.get row = some col ∧
      reached = search.distance.get col

/-- What a search knows about a column that it has reached: the row before it, the distance, which
is the length of the path over that row up to rounding, and how far the distance is spread. -/
structure Label (search : Search κ n) (matrix : SquareMatrix κ n) (potentials : Potentials κ n)
    (matching : Matching n) (origin : Fin n) (spread : ℚ) (col : Fin n) : Prop where
  exists_row : ∃ row reached, search.predecessor.get col = some row ∧
    search.ComesTo matching origin row reached ∧
    Near (search.distance.get col)
      (value reached + value (matrix.get row col) - value (potentials.row.get row) -
        value (potentials.col.get col)) (3 * error κ)
  abs_add_le : |value (search.distance.get col) + value (potentials.col.get col)| ≤ spread

theorem Label.finite (label : search.Label matrix potentials matching origin spread col) :
    isFinite (search.distance.get col) = true := by
  obtain ⟨_, _, _, _, near⟩ := label.exists_row
  exact near.finite

/-- How far a row is from the origin, and how far that is from its potential. -/
structure Stands (potentials : Potentials κ n) (row : Fin n) (reached : κ)
    (size slack height spread : ℚ) : Prop where
  finite : isFinite reached = true
  abs_le : |value reached| ≤ spread + height
  abs_sub_le : |value reached - value (potentials.row.get row)| ≤ spread + size + slack

/-- How much one more row on a path can spread the distances. -/
def reach (κ : Type) [CostNumber κ] [RoundedCost κ] (size slack : ℚ) : ℚ :=
  2 * size + slack + 3 * error κ

theorem reach_nonneg (costs : matrix.Moderate size) (row : Fin n) (nonneg : 0 ≤ slack) :
    0 ≤ reach κ size slack := by
  have small : 0 ≤ error κ := RoundedCost.error_nonneg
  have positive : 0 ≤ size := (abs_nonneg _).trans (costs.abs_le row row)
  rw [reach]
  linarith

/-- The length of a path over one more row is finite, and off by three errors at most. -/
theorem near_candidate (costs : matrix.Moderate size)
    (prices : potentials.Moderate matrix matching size slack height)
    (stands : Stands potentials row reached size slack height spread) (col : Fin n)
    (room : spread + reach κ size slack + height < range κ) (nonneg : 0 ≤ slack) :
    Near (candidate matrix potentials row reached col)
        (value reached + value (matrix.get row col) - value (potentials.row.get row) -
          value (potentials.col.get col)) (3 * error κ) ∧
      |value (candidate matrix potentials row reached col) +
        value (potentials.col.get col)| ≤ spread + reach κ size slack := by
  have small : 0 ≤ error κ := RoundedCost.error_nonneg
  rw [reach] at room ⊢
  obtain ⟨costLow, costHigh⟩ := abs_le.mp (costs.abs_le row col)
  obtain ⟨priceLow, priceHigh⟩ := abs_le.mp (prices.abs_col col)
  obtain ⟨farLow, farHigh⟩ := abs_le.mp stands.abs_le
  obtain ⟨offLow, offHigh⟩ := abs_le.mp stands.abs_sub_le
  -- The distance cancels against the potential of its row, up to what `stands` allows, so that only
  -- the potential of the column is left beside costs.
  have first := (Near.self stands.finite).add (Near.self (costs.finite row col)) (by
    have inside : |value reached + value (matrix.get row col)| ≤ spread + height + size :=
      abs_le.mpr ⟨by linarith, by linarith⟩
    linarith)
  have second := first.sub (Near.self (prices.finite_row row)) (by
    have inside : |value reached + value (matrix.get row col) -
        value (potentials.row.get row)| ≤ spread + 2 * size + slack :=
      abs_le.mpr ⟨by linarith, by linarith⟩
    linarith)
  have third := second.sub (Near.self (prices.finite_col col)) (by
    have inside : |value reached + value (matrix.get row col) - value (potentials.row.get row) -
        value (potentials.col.get col)| ≤ spread + 2 * size + slack + height :=
      abs_le.mpr ⟨by linarith, by linarith⟩
    linarith)
  have near := third.mono (by linarith : _ ≤ 3 * error κ)
  obtain ⟨closeLow, closeHigh⟩ := abs_le.mp near.close
  refine ⟨near, abs_le.mpr ⟨?_, ?_⟩⟩
  · rw [candidate]
    linarith
  · rw [candidate]
    linarith

/-! ## Rounds -/

omit [RoundedCost κ] in
/-- What a round has come to before it has come to after it. -/
theorem Settles.comesTo_mono (round : Settles matrix potentials before row reached col after)
    {other : Fin n} {distance : κ} (comes : before.ComesTo matching origin other distance) :
    after.ComesTo matching origin other distance := by
  rcases comes with isOrigin | ⟨owned, visited, paired, rfl⟩
  · exact .inl isOrigin
  · exact .inr ⟨owned, round.visited_mono visited, paired,
      (round.distance_of_visited visited).symm⟩

/-- A column has not been reached yet and is not settled, or it has a label. -/
def Known (search : Search κ n) (matrix : SquareMatrix κ n) (potentials : Potentials κ n)
    (matching : Matching n) (origin : Fin n) (spread : ℚ) (col : Fin n) : Prop :=
  search.distance.get col = infinity ∧ search.visited.get col = false ∨
    search.Label matrix potentials matching origin spread col

/-- A round reaches every column. -/
theorem Settles.label_after (round : Settles matrix potentials before row reached col after)
    (known : ∀ col, before.Known matrix potentials matching origin spread col)
    (comes : before.ComesTo matching origin row reached)
    (costs : matrix.Moderate size)
    (prices : potentials.Moderate matrix matching size slack height)
    (stands : Stands potentials row reached size slack height spread)
    (room : spread + reach κ size slack + height < range κ) (nonneg : 0 ≤ slack)
    (other : Fin n) :
    after.Label matrix potentials matching origin (spread + reach κ size slack)
      other := by
  obtain ⟨near, bound⟩ := near_candidate costs prices stands other room nonneg
  rcases round.label other with ⟨_, _, distance, predecessor⟩ | ⟨kept, distance, predecessor⟩
  · refine ⟨⟨row, reached, predecessor, round.comesTo_mono comes, ?_⟩, ?_⟩
    · rwa [distance]
    · rwa [distance]
  · rcases known other with ⟨unreached, unsettled⟩ | label
    · rw [unreached, unsettled] at kept
      exact absurd (RoundedCost.lt_infinity near.finite) (kept.resolve_left (by simp))
    · obtain ⟨via, reached', before_eq, comes', near'⟩ := label.exists_row
      have wider := reach_nonneg costs row nonneg
      refine ⟨⟨via, reached', predecessor.trans before_eq, round.comesTo_mono comes', ?_⟩, ?_⟩
      · rwa [distance]
      · rw [distance]
        linarith [label.abs_add_le]

/-- From a settled column the search comes to the row that owns it. -/
theorem Label.stands (label : search.Label matrix potentials matching origin spread col)
    (costs : matrix.Moderate size)
    (prices : potentials.Moderate matrix matching size slack height)
    (owned : matching.colOf.get row = some col) :
    Stands potentials row (search.distance.get col) size slack height spread := by
  obtain ⟨costLow, costHigh⟩ := abs_le.mp (costs.abs_le row col)
  obtain ⟨priceLow, priceHigh⟩ := abs_le.mp (prices.abs_col col)
  obtain ⟨tightLow, tightHigh⟩ := abs_le.mp (prices.tight row col owned)
  obtain ⟨spreadLow, spreadHigh⟩ := abs_le.mp label.abs_add_le
  exact ⟨label.finite, abs_le.mpr ⟨by linarith, by linarith⟩, abs_le.mpr ⟨by linarith, by linarith⟩⟩

omit [RoundedCost κ] in
private theorem foldl_nearer_eq_none (cols : List (Fin n))
    (none : cols.foldl search.nearer none = none) (member : col ∈ cols)
    (unsettled : search.visited.get col = false) : ¬ search.distance.get col < infinity := by
  induction cols using List.reverseRecOn with
  | nil => contradiction
  | append_singleton rest last ih =>
    rw [List.foldl_append, List.foldl_cons, List.foldl_nil] at none
    simp only [nearer] at none
    split_ifs at none with improves
    rw [none] at improves
    rcases List.mem_append.mp member with earlier | isLast
    · exact ih none earlier
    · obtain rfl := List.mem_singleton.mp isLast
      intro below
      exact improves (by simp [unsettled, below])

/-- Where a column that is not settled is at a finite distance, there is a nearest one. -/
theorem exists_nearest (search : Search κ n) (unsettled : search.visited.get col = false)
    (finite : isFinite (search.distance.get col) = true) :
    ∃ other, search.nearest? = some other := by
  refine Option.ne_none_iff_exists'.mp fun none => ?_
  exact foldl_nearer_eq_none _ none (List.mem_finRange col) unsettled
    (RoundedCost.lt_infinity finite)

/-- Extending the paths reaches every column at a finite distance. -/
theorem isFinite_relax (known : ∀ col, before.Known matrix potentials matching origin spread col)
    (costs : matrix.Moderate size)
    (prices : potentials.Moderate matrix matching size slack height)
    (stands : Stands potentials row reached size slack height spread)
    (room : spread + reach κ size slack + height < range κ) (nonneg : 0 ≤ slack) (other : Fin n) :
    isFinite ((before.relax matrix potentials row reached).distance.get other) = true := by
  obtain ⟨near, _⟩ := near_candidate costs prices stands other room nonneg
  rw [relax_distance]
  split_ifs with shorter
  · exact near.finite
  · rcases known other with ⟨unreached, unsettled⟩ | label
    · have below := RoundedCost.lt_infinity near.finite
      exact absurd (by simp [improves, unsettled, unreached, below]) shorter
    · exact label.finite

/-- The number of rounds bounds how far the distances are spread. -/
theorem Reachable.spread_le [LawfulCost κ] (costs : matrix.Moderate size) (nonneg : 0 ≤ slack)
    (consistent : matching.Consistent) {unsettled : Nat}
    (reachable : Reachable matrix potentials matching origin (unsettled + 1) search row reached) :
    search.scanned.size * reach κ size slack + reach κ size slack ≤ n * reach κ size slack := by
  obtain ⟨_, _, _, count⟩ := reachable.traced consistent
  rw [← add_one_mul]
  refine mul_le_mul_of_nonneg_right ?_ (reach_nonneg costs row nonneg)
  exact_mod_cast (by omega : search.scanned.size + 1 ≤ n)

variable (costs : matrix.Moderate size)
  (prices : potentials.Moderate matrix matching size slack height)
  (nonneg : 0 ≤ slack) (tall : 0 ≤ height)
  (room : n * reach κ size slack + height < range κ)
  (consistent : matching.Consistent) (free : matching.colOf.get origin = none)

include costs prices nonneg tall room consistent free

/-- In every state of a search the distances are spread by two costs for every settled column. -/
theorem Reachable.known [LawfulCost κ] {unsettled : Nat}
    (reachable : Reachable matrix potentials matching origin unsettled search row reached) :
    (∀ col, search.Known matrix potentials matching origin
        (search.scanned.size * reach κ size slack) col) ∧
      search.ComesTo matching origin row reached ∧
      Stands potentials row reached size slack height
        (search.scanned.size * reach κ size slack) := by
  induction reachable with
  | start =>
    refine ⟨fun col => .inl ⟨blank_distance col, blank_visited col⟩, .inl ⟨rfl, rfl⟩, ?_⟩
    have price := prices.free_row origin free
    refine ⟨RoundedCost.isFinite_zero, ?_, ?_⟩
    · rw [RoundedCost.value_zero]
      simpa using tall
    · rw [RoundedCost.value_zero, zero_sub, abs_neg]
      simp
      linarith
  | @round unsettled before after row col owner reached reachable settles owned ih =>
    obtain ⟨known, comes, stands⟩ := ih
    -- A round settles one more column and spreads the distances by one more `reach`.
    have grown : (after.scanned.size : ℚ) * reach κ size slack =
        before.scanned.size * reach κ size slack + reach κ size slack := by
      rw [settles.scanned, Array.size_push]
      push_cast
      ring
    have spread := reachable.spread_le costs nonneg consistent
    have label (other : Fin n) := settles.label_after known comes costs prices stands
      (by linarith) nonneg other
    have paired := (consistent owner col).mpr owned
    have visited := (settles.visited_iff col).mpr (.inr rfl)
    rw [grown]
    exact ⟨fun other => .inr (label other), .inr ⟨col, visited, paired, rfl⟩,
      (label col).stands costs prices paired⟩

/-- No state of a search from a free row is without a round. -/
theorem Reachable.exists_settles [LawfulCost κ] {unsettled : Nat}
    (reachable : Reachable matrix potentials matching origin unsettled search row reached) :
    unsettled ≠ 0 ∧ ∃ col after, Settles matrix potentials search row reached col after := by
  obtain ⟨known, comes, stands⟩ :=
    reachable.known costs prices nonneg tall room consistent free
  obtain ⟨left, spare, unvisited, _⟩ := reachable.exists_unsettled consistent free
  obtain ⟨rounds, rfl⟩ := Nat.exists_eq_succ_of_ne_zero left
  have spread := reachable.spread_le costs nonneg consistent
  have finite := isFinite_relax known costs prices stands (by linarith) nonneg
  obtain ⟨col, nearest⟩ :=
    exists_nearest (search.relax matrix potentials row reached) unvisited (finite spare)
  exact ⟨left, col, _, nearest, finite col, rfl⟩

/-- A search from a free row always ends at a free column, and then every column has a label. -/
theorem exists_fromRow_of_moderate [LawfulCost κ] (scratch : Search κ n) :
    ∃ final sink, fromRow matrix potentials matching scratch origin = (final, some sink) ∧
      ∀ col, final.Label matrix potentials matching origin (n * reach κ size slack) col := by
  have ends := fromRow_ends matrix potentials matching scratch origin
  rcases outcome : fromRow matrix potentials matching scratch origin with ⟨final, _ | sink⟩
  · rw [outcome] at ends
    obtain ⟨unsettled, before, row, reached, reachable, stuck⟩ := ends
    obtain ⟨left, col, after, round⟩ :=
      reachable.exists_settles costs prices nonneg tall room consistent free
    rcases stuck with none | stuck
    · exact absurd none left
    · exact absurd round (stuck col after)
  · rw [outcome] at ends
    obtain ⟨unsettled, before, row, reached, reachable, round, _⟩ := ends
    obtain ⟨known, comes, stands⟩ :=
      reachable.known costs prices nonneg tall room consistent free
    have spread := reachable.spread_le costs nonneg consistent
    refine ⟨final, sink, rfl, fun col => ?_⟩
    have label := round.label_after known comes costs prices stands (by linarith) nonneg col
    exact ⟨label.exists_row, label.abs_add_le.trans spread⟩

end Search

end LinearAssignment
