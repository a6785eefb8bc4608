import LinearAssignment.Proofs.Cost.Binary64
import LinearAssignment.Proofs.Magnitude
import LinearAssignment.Proofs.Parallel

/-! # Whole costs are not rounded

A solve only adds, subtracts and compares, and what it computes from costs of some size is at most
six times that size. So from whole costs up to a sixth of 2⁵³ everything is a whole number of 53
bits, and 64-bit floating point takes the same course as exact arithmetic without any rounding.
-/

namespace LinearAssignment

open CostNumber (infinity isFinite ofNat)
open ExactCost (finite)

/-! ## Whole numbers in 64-bit floating point -/

/-- The result of an operation is the exact one. -/
def Binary64.Unrounded (result : Float) (exact : ℚ) : Prop :=
  result.isFinite = true ∧ Binary64.value result = exact

namespace ExactCost

/-- A number is the whole cost that it stands for, or both are infinite. -/
def StoredAs (a : ExactCost) (x : Float) : Prop :=
  a = top ∧ x = Binary64.infinity ∨
    ∃ k : ℤ, a = finite k ∧ x.isFinite = true ∧ Binary64.value x = k

variable {a b : ExactCost} {x y : Float} {size : ℚ}

theorem storedAs_zero : (ofNat 0 : ExactCost).StoredAs (ofNat 0) :=
  .inr ⟨0, ofNat_zero.trans (congrArg finite Int.cast_zero.symm), Binary64.isFinite_zero,
    Binary64.value_zero.trans Int.cast_zero.symm⟩

theorem StoredAs.exists_whole (stored : a.StoredAs x) (rational : isFinite a = true) :
    ∃ k : ℤ, a = finite k ∧ x.isFinite = true ∧ Binary64.value x = k := by
  rcases stored with ⟨rfl, _⟩ | whole
  · contradiction
  · exact whole

private theorem abs_le_of_between {k : ℤ} (between : (finite k).Between (-size) size)
    (narrow : size ≤ 2 ^ 53) : |k| ≤ 2 ^ 53 := by
  have bound : |(k : ℚ)| ≤ 2 ^ 53 := (abs_le.mpr between).trans narrow
  exact_mod_cast bound

/-- A sum of whole costs is stored without rounding if it is not too large. -/
theorem StoredAs.add (stored : a.StoredAs x) (stored' : b.StoredAs y) (rational : isFinite a = true)
    (rational' : isFinite b = true) (between : (a + b).Between (-size) size)
    (narrow : size ≤ 2 ^ 53) :
    (a + b).StoredAs (x + y) ∧
      Binary64.Unrounded (x + y) (Binary64.value x + Binary64.value y) := by
  obtain ⟨k, rfl, finite, whole⟩ := stored.exists_whole rational
  obtain ⟨l, rfl, finite', whole'⟩ := stored'.exists_whole rational'
  rw [finite_add, ← Int.cast_add] at between ⊢
  obtain ⟨finite_sum, sum⟩ :=
    Binary64.add_whole finite finite' whole whole' (abs_le_of_between between narrow)
  refine ⟨.inr ⟨k + l, rfl, finite_sum, sum⟩, finite_sum, ?_⟩
  rw [sum, whole, whole', Int.cast_add]

/-- So is a difference. -/
theorem StoredAs.sub (stored : a.StoredAs x) (stored' : b.StoredAs y) (rational : isFinite a = true)
    (rational' : isFinite b = true) (between : (a - b).Between (-size) size)
    (narrow : size ≤ 2 ^ 53) :
    (a - b).StoredAs (x - y) ∧
      Binary64.Unrounded (x - y) (Binary64.value x - Binary64.value y) := by
  obtain ⟨k, rfl, finite, whole⟩ := stored.exists_whole rational
  obtain ⟨l, rfl, finite', whole'⟩ := stored'.exists_whole rational'
  rw [finite_sub, ← Int.cast_sub] at between ⊢
  obtain ⟨finite_difference, difference⟩ :=
    Binary64.sub_whole finite finite' whole whole' (abs_le_of_between between narrow)
  refine ⟨.inr ⟨k - l, rfl, finite_difference, difference⟩, finite_difference, ?_⟩
  rw [difference, whole, whole', Int.cast_sub]

/-- Whole costs are told apart in the same way when they are stored. -/
theorem corresponds_storedAs : CostNumber.Corresponds StoredAs where
  infinity := .inl ⟨rfl, rfl⟩
  lt_iff := by
    rintro _ _ x y (⟨rfl, rfl⟩ | ⟨k, rfl, finite, whole⟩) (⟨rfl, rfl⟩ | ⟨l, rfl, finite', whole'⟩)
    · exact iff_of_false (lt_irrefl top) (by decide +kernel)
    · exact iff_of_false Bool.false_ne_true (RoundedCost.not_infinity_lt finite')
    · exact iff_of_true (finite_lt_top _) (RoundedCost.lt_infinity finite)
    · rw [finite_lt_finite, Int.cast_lt]
      refine Iff.trans ?_ (RoundedCost.lt_iff finite finite').symm
      change k < l ↔ Binary64.value x < Binary64.value y
      rw [whole, whole', Int.cast_lt]
  beq_eq := by
    rintro _ _ x y (⟨rfl, rfl⟩ | ⟨k, rfl, finite, whole⟩) (⟨rfl, rfl⟩ | ⟨l, rfl, finite', whole'⟩)
    · exact (decide_eq_true rfl).trans (by decide +kernel)
    · exact (decide_eq_false ExactCost.noConfusion).trans (Binary64.beq_infinity finite').2.symm
    · exact (decide_eq_false ExactCost.noConfusion).trans (Binary64.beq_infinity finite).1.symm
    · rw [Bool.eq_iff_iff, Binary64.beq_iff finite finite', whole, whole', Int.cast_inj]
      refine decide_eq_true_iff.trans ?_
      rw [ExactCost.finite.injEq, Int.cast_inj]
  isFinite_eq := by
    rintro _ _ (⟨rfl, rfl⟩ | ⟨k, rfl, finite, _⟩)
    · exact LawfulCost.isFinite_infinity.symm
    · exact finite.symm

end ExactCost

variable {n : Nat} {matrix : SquareMatrix ExactCost n} {matrix' : SquareMatrix Float n}
  {potentials : Potentials ExactCost n} {potentials' : Potentials Float n} {matching : Matching n}
  {search scratch : Search ExactCost n} {search' : Search Float n} {origin sink row col : Fin n}
  {length size : ℚ}

/-- A square of whole costs and the same square in 64-bit floating point. -/
def SquareMatrix.StoredAs (matrix : SquareMatrix ExactCost n) (matrix' : SquareMatrix Float n) :
    Prop :=
  ∀ row col, (matrix.get row col).StoredAs (matrix'.get row col)

/-- Whole potentials and the same potentials in 64-bit floating point. -/
structure Potentials.StoredAs (potentials : Potentials ExactCost n)
    (potentials' : Potentials Float n) : Prop where
  row : ∀ row, (potentials.row.get row).StoredAs (potentials'.row.get row)
  col : ∀ col, (potentials.col.get col).StoredAs (potentials'.col.get col)

/-! ## Searches -/

/-- Extending a path to a column takes three operations, none of which is rounded. -/
structure Search.Unrounded (matrix : SquareMatrix Float n) (potentials : Potentials Float n)
    (row : Fin n) (reached : Float) (col : Fin n) : Prop where
  cost : Binary64.Unrounded (reached + matrix.get row col)
    (Binary64.value reached + Binary64.value (matrix.get row col))
  rowPrice : Binary64.Unrounded (reached + matrix.get row col - potentials.row.get row)
    (Binary64.value (reached + matrix.get row col) - Binary64.value (potentials.row.get row))
  colPrice : Binary64.Unrounded (candidate matrix potentials row reached col)
    (Binary64.value (reached + matrix.get row col - potentials.row.get row) -
      Binary64.value (potentials.col.get col))

section

variable (anchored : Anchored matrix potentials matching size) (bounded : matrix.Bounded size)
  (small : 6 * size ≤ 2 ^ 53) (costs : matrix.StoredAs matrix')
  (prices : potentials.StoredAs potentials')

include anchored bounded small costs prices

theorem Search.storedAs_candidate {reached : ExactCost} {reached' : Float}
    (between : reached.Between (-size) (2 * size)) (stored : reached.StoredAs reached')
    (row col : Fin n) :
    (candidate matrix potentials row reached col).StoredAs
        (candidate matrix' potentials' row reached' col) ∧
      Unrounded matrix' potentials' row reached' col := by
  have inside := between_partialLengths anchored bounded between row col
  simp only [partialLengths, List.forall_mem_cons] at inside
  obtain ⟨first, second, third, _⟩ := inside
  obtain ⟨storedFirst, exactFirst⟩ := stored.add (costs row col) between.isFinite
    (bounded row col).isFinite first small
  obtain ⟨storedSecond, exactSecond⟩ := storedFirst.sub (prices.row row) first.isFinite
    (anchored.rational.row row) second small
  obtain ⟨storedThird, exactThird⟩ := storedSecond.sub (prices.col col) second.isFinite
    (anchored.rational.col col) third small
  exact ⟨storedThird, exactFirst, exactSecond, exactThird⟩

omit anchored bounded small costs prices in
/-- The row that two searches go on from is reached at a stored distance. -/
theorem Search.GoesOn.storedAs {reached : ExactCost} {reached' : Float}
    (goesOn : GoesOn ExactCost.StoredAs matching origin row reached reached') :
    reached.StoredAs reached' := by
  rcases goesOn with ⟨_, rfl, rfl⟩ | ⟨_, stored⟩
  · exact ExactCost.storedAs_zero
  · exact stored

/-- A search takes the same course in both arithmetics. -/
theorem Search.parallel_storedAs (free : matching.colOf.get origin = none) :
    Parallel ExactCost.StoredAs matrix potentials matrix' potentials' matching origin where
  corresponds := ExactCost.corresponds_storedAs
  lengths reachable goesOn col := (storedAs_candidate anchored bounded small costs prices
    (reachable.between_reached anchored bounded free) goesOn.storedAs _ col).1

end

/-! ## Augmentations -/

/-- Shifting potentials after a search that ended takes an operation for the row where it began, and
three for every other column that it settled; none of them is rounded. -/
structure Potentials.ShiftsUnrounded (potentials : Potentials Float n) (search : Search Float n)
    (matching : Matching n) (origin sink : Fin n) : Prop where
  first : Binary64.Unrounded (potentials.row.get origin + search.distance.get sink)
    (Binary64.value (potentials.row.get origin) + Binary64.value (search.distance.get sink))
  slack : ∀ col, search.shifts sink col = true → Binary64.Unrounded (search.slack sink col)
    (Binary64.value (search.distance.get sink) - Binary64.value (search.distance.get col))
  owner : ∀ row col, matching.colOf.get row = some col → search.shifts sink col = true →
    Binary64.Unrounded (potentials.row.get row + search.slack sink col)
      (Binary64.value (potentials.row.get row) + Binary64.value (search.slack sink col))
  settled : ∀ col, search.shifts sink col = true →
    Binary64.Unrounded (potentials.col.get col - search.slack sink col)
      (Binary64.value (potentials.col.get col) - Binary64.value (search.slack sink col))

section

variable (anchored : Anchored matrix potentials matching size) (bounded : matrix.Bounded size)
  (small : 6 * size ≤ 2 ^ 53)
  (found : Search.fromRow matrix potentials matching scratch origin = (search, some sink))
  (ended : search.Ended matrix potentials matching origin sink length)
  (alike : search.Alike ExactCost.StoredAs search')

include anchored bounded small found ended alike

theorem Search.storedAs_slack (visited : search.visited.get col = true) :
    (search.slack sink col).StoredAs (search'.slack sink col) ∧
      Binary64.Unrounded (search'.slack sink col)
        (Binary64.value (search'.distance.get sink) -
          Binary64.value (search'.distance.get col)) := by
  obtain ⟨near, _, distance⟩ := ended.measured.settled col visited
  refine (alike.distance sink).sub (alike.distance col) ?_ ?_
    (anchored.between_slack bounded found ended visited) (by linarith [bounded.nonneg origin])
  · rw [ended.distance]
    rfl
  · rw [distance]
    rfl

variable (prices : potentials.StoredAs potentials')

include prices

/-- The row where the search began rises to a potential that is bounded. -/
theorem Potentials.StoredAs.first :
    (potentials.row.get origin + search.distance.get sink).StoredAs
        (potentials'.row.get origin + search'.distance.get sink) ∧
      Binary64.Unrounded (potentials'.row.get origin + search'.distance.get sink)
        (Binary64.value (potentials'.row.get origin) +
          Binary64.value (search'.distance.get sink)) := by
  have price := (anchored.shifted found ended).between_row bounded origin
  rw [potentials.shifted_row_origin] at price
  refine (prices.row origin).add (alike.distance sink) (anchored.rational.row origin) ?_ price
    (by linarith [bounded.nonneg origin])
  rw [ended.distance]
  rfl

/-- So does the owner of a settled column. -/
theorem Potentials.StoredAs.owner (owned : matching.colOf.get row = some col)
    (shifts : search.shifts sink col = true) :
    (potentials.row.get row + search.slack sink col).StoredAs
        (potentials'.row.get row + search'.slack sink col) ∧
      Binary64.Unrounded (potentials'.row.get row + search'.slack sink col)
        (Binary64.value (potentials'.row.get row) + Binary64.value (search'.slack sink col)) := by
  have visited := (Bool.and_eq_true_iff.mp shifts).1
  have notOrigin : row ≠ origin := by
    rintro rfl
    simp [ended.free] at owned
  have price := (anchored.shifted found ended).between_row bounded row
  rw [potentials.shifted_row_owner notOrigin owned shifts] at price
  exact (prices.row row).add
    (Search.storedAs_slack anchored bounded small found ended alike visited).1
    (anchored.rational.row row) (anchored.between_slack bounded found ended visited).isFinite price
    (by linarith [bounded.nonneg origin])

/-- The column falls to one that is bounded. -/
theorem Potentials.StoredAs.settled (shifts : search.shifts sink col = true) :
    (potentials.col.get col - search.slack sink col).StoredAs
        (potentials'.col.get col - search'.slack sink col) ∧
      Binary64.Unrounded (potentials'.col.get col - search'.slack sink col)
        (Binary64.value (potentials'.col.get col) - Binary64.value (search'.slack sink col)) := by
  have nonneg := bounded.nonneg origin
  have visited := (Bool.and_eq_true_iff.mp shifts).1
  have price := (anchored.shifted found ended).between_col bounded col
  rw [potentials.shifted_col_of_shifts shifts] at price
  exact (prices.col col).sub
    (Search.storedAs_slack anchored bounded small found ended alike visited).1
    (anchored.rational.col col) (anchored.between_slack bounded found ended visited).isFinite
    (price.mono le_rfl (by linarith : 0 ≤ 2 * size)) (by linarith)

/-- Shifted potentials are stored again, and no shift is rounded. -/
theorem Potentials.StoredAs.shifted :
    (potentials.shifted search matching origin sink).StoredAs
        (potentials'.shifted search' matching origin sink) ∧
      potentials'.ShiftsUnrounded search' matching origin sink := by
  have shifts_eq : ∀ col, search'.shifts sink col = search.shifts sink col := fun col => by
    rw [Search.shifts, Search.shifts, alike.visited]
  have first := prices.first anchored bounded small found ended alike
  refine ⟨⟨fun row => ?_, fun col => ?_⟩, first.2, fun col shifts => ?_,
    fun row col owned shifts => ?_, fun col shifts => ?_⟩
  · rw [shifted_row, shifted_row]
    split_ifs with isOrigin
    · rw [isOrigin]
      exact first.1
    · cases owned : matching.colOf.get row with
      | none => exact prices.row row
      | some col =>
        dsimp only
        rw [shifts_eq]
        split_ifs with shifts
        · exact (prices.owner anchored bounded small found ended alike owned shifts).1
        · exact prices.row row
  · rw [shifted_col, shifted_col, shifts_eq]
    split_ifs with shifts
    · exact (prices.settled anchored bounded small found ended alike shifts).1
    · exact prices.col col
  · rw [shifts_eq] at shifts
    exact (Search.storedAs_slack anchored bounded small found ended alike
      (Bool.and_eq_true_iff.mp shifts).1).2
  · rw [shifts_eq] at shifts
    exact (prices.owner anchored bounded small found ended alike owned shifts).2
  · rw [shifts_eq] at shifts
    exact (prices.settled anchored bounded small found ended alike shifts).2

end

/-! ## Solves -/

namespace Progress

variable {progress : Progress ExactCost n} {progress' : Progress Float n}
  {initialization : DualStart}

/-- Two solves under way, the second in 64-bit floating point, without any rounding so far. -/
structure Stored (matrix : SquareMatrix ExactCost n) (size : ℚ) (progress : Progress ExactCost n)
    (progress' : Progress Float n) : Prop where
  abreast : progress.Abreast progress'
  anchored : progress.IsAnchored matrix size
  potentials : progress.scratch.potentials.StoredAs progress'.scratch.potentials

theorem Stored.startAt {m m' : Nat} (bounded : matrix.Bounded size)
    (costs : matrix.StoredAs matrix') (initialization : DualStart) (scratch : Scratch ExactCost m)
    (scratch' : Scratch Float m') (tally : Tally) :
    Stored matrix size ((Progress.begin (scratch.cleared n) tally).startAt matrix initialization)
      ((Progress.begin (scratch'.cleared n) tally).startAt matrix' initialization) := by
  have minimum : ∀ row, (matrix.rowMinimum row).StoredAs (matrix'.rowMinimum row) :=
    fun row => ExactCost.corresponds_storedAs.rowMinimum (costs row)
  have start := Reduced.startAt matrix initialization scratch tally
  have start' := Reduced.startAt matrix' initialization scratch' tally
  refine ⟨(Abreast.begin scratch scratch' tally).startAt (fun row col => ?_) initialization,
    start.isAnchored bounded, fun row => ?_, fun col => ?_⟩
  · exact (ExactCost.corresponds_storedAs.beq_eq (costs row col) (minimum row)).symm
  · rw [start.row_eq, start'.row_eq]
    split_ifs
    · exact minimum row
    · exact ExactCost.storedAs_zero
  · rw [start.col_eq, start'.col_eq]
    exact ExactCost.storedAs_zero

/-- Both augmentations find the same path, and neither is rounded. -/
theorem Stored.exists_path (stored : Stored matrix size progress progress')
    (bounded : matrix.Bounded size) (small : 6 * size ≤ 2 ^ 53) (costs : matrix.StoredAs matrix')
    (free : progress.scratch.matching.colOf.get row = none) :
    ∃ search search' sink,
      Search.fromRow matrix' progress'.scratch.potentials progress'.scratch.matching
        progress'.scratch.search row = (search', some sink) ∧
      progress'.scratch.potentials.ShiftsUnrounded search' progress'.scratch.matching row sink ∧
      progress.augment matrix row = (true, progress.afterPath search row sink) ∧
      progress'.augment matrix' row = (true, progress'.afterPath search' row sink) ∧
      Stored matrix size (progress.afterPath search row sink)
        (progress'.afterPath search' row sink) := by
  obtain ⟨search, sink, length, found, ended⟩ :=
    stored.anchored.exists_ended bounded.rational free progress.scratch.search
  obtain ⟨search', found', alike, outcome, outcome'⟩ := stored.abreast.augment
    (Search.parallel_storedAs stored.anchored bounded small costs stored.potentials free) found
  obtain ⟨shifted, unrounded⟩ :=
    stored.potentials.shifted stored.anchored bounded small found ended alike
  rw [← stored.abreast.matching_eq] at unrounded
  refine ⟨search, search', sink, found', unrounded, outcome, outcome',
    stored.abreast.afterPath alike row sink, stored.anchored.shifted found ended, ?_⟩
  simpa only [afterPath, stored.abreast.matching_eq] using shifted

theorem Stored.augmentAll (bounded : matrix.Bounded size) (small : 6 * size ≤ 2 ^ 53)
    (costs : matrix.StoredAs matrix') (rows : List (Fin n))
    (stored : Stored matrix size progress progress') :
    ∃ final final', progress.augmentAll matrix rows = (none, final) ∧
      progress'.augmentAll matrix' rows = (none, final') ∧ Stored matrix size final final' := by
  refine augmentAll_abreast Stored.abreast (fun stored free => ?_) rows stored
  obtain ⟨_, _, _, _, _, outcome, outcome', kept⟩ := stored.exists_path bounded small costs free
  exact ⟨_, _, outcome, outcome', kept⟩

/-- What a solve goes on to compute is not rounded: the lengths of paths in any search from a free
row, and the potentials after it. -/
structure Unrounded (progress : Progress Float n) (matrix : SquareMatrix Float n) : Prop where
  lengths : ∀ {origin row unsettled search reached},
    progress.scratch.matching.colOf.get origin = none →
    Search.Reachable matrix progress.scratch.potentials progress.scratch.matching origin unsettled
      search row reached →
    ∀ col, Search.Unrounded matrix progress.scratch.potentials row reached col
  shifts : ∀ {origin}, progress.scratch.matching.colOf.get origin = none →
    ∃ search sink, Search.fromRow matrix progress.scratch.potentials progress.scratch.matching
        progress.scratch.search origin = (search, some sink) ∧
      progress.scratch.potentials.ShiftsUnrounded search progress.scratch.matching origin sink

theorem Stored.unrounded (stored : Stored matrix size progress progress')
    (bounded : matrix.Bounded size) (small : 6 * size ≤ 2 ^ 53) (costs : matrix.StoredAs matrix') :
    progress'.Unrounded matrix' where
  lengths free reachable' col := by
    rw [stored.abreast.matching_eq] at free reachable'
    obtain ⟨_, _, reachable, _, goesOn⟩ := (Search.parallel_storedAs stored.anchored bounded small
      costs stored.potentials free).exists_reachable_alike reachable'
    exact (Search.storedAs_candidate stored.anchored bounded small costs stored.potentials
      (reachable.between_reached stored.anchored bounded free) goesOn.storedAs _ col).2
  shifts free := by
    rw [stored.abreast.matching_eq] at free
    obtain ⟨_, search', sink, found', unrounded, _⟩ :=
      stored.exists_path bounded small costs free
    exact ⟨search', sink, found', unrounded⟩

end Progress

/-- Costs of some size keep a solve in range, while it reduces rows and whenever it has come through
some of its augmentations, whatever the number of rows: potentials of rows stay within that size,
those of columns and the distances of settled columns within twice, and all sums within six times.
If the costs are whole and six times their size is not above 2⁵³, then 64-bit floating point takes
the same course with the same potentials, and no operation of a search or a shift is rounded. -/
theorem solveSquare_inRange (bounded : matrix.Bounded size) (initialization : DualStart)
    {workspace : Workspace ExactCost} {capacity : Nat} {scratch : Scratch ExactCost n}
    (prepared : workspace.prepare n = .ok (capacity, scratch)) (tally : Tally) (count : Nat) :
    (((List.finRange n).take count).foldl (Progress.reduceRow matrix)
        (Progress.begin scratch tally)).InRange matrix size ∧
      ∃ progress : Progress ExactCost n,
        ((Progress.begin scratch tally).startAt matrix initialization).augmentAll matrix
          ((List.finRange n).take count) = (none, progress) ∧
        solveSquare matrix initialization scratch tally =
          progress.augmentAll matrix ((List.finRange n).drop count) ∧
        progress.InRange matrix size ∧
        ∀ {matrix' : SquareMatrix Float n} {workspace' : Workspace Float} {capacity' : Nat}
          {scratch' : Scratch Float n},
          matrix.StoredAs matrix' → 6 * size ≤ 2 ^ 53 →
          workspace'.prepare n = .ok (capacity', scratch') →
          ∃ progress' : Progress Float n,
            ((Progress.begin scratch' tally).startAt matrix' initialization).augmentAll matrix'
              ((List.finRange n).take count) = (none, progress') ∧
            solveSquare matrix' initialization scratch' tally =
              progress'.augmentAll matrix' ((List.finRange n).drop count) ∧
            progress'.scratch.matching = progress.scratch.matching ∧
            progress.scratch.potentials.StoredAs progress'.scratch.potentials ∧
            progress'.Unrounded matrix' := by
  obtain rfl := Workspace.eq_cleared_of_prepare prepared
  have reducing := (Progress.Reduced.begin matrix workspace.scratch tally).foldl_reduceRow
    ((List.nodup_finRange n).sublist (List.take_sublist count _))
  have start := (Progress.Reduced.startAt matrix initialization workspace.scratch tally).isAnchored
    bounded
  obtain ⟨progress, reached, anchored⟩ :=
    start.augmentAll bounded ((List.finRange n).take count)
  refine ⟨(reducing.isAnchored bounded).inRange bounded, progress, reached,
    solveSquare_of_augmentAll_take reached, anchored.inRange bounded, ?_⟩
  intro matrix' workspace' capacity' scratch' costs small prepared'
  obtain rfl := Workspace.eq_cleared_of_prepare prepared'
  obtain ⟨_, progress', reached', whole, stored⟩ := (Progress.Stored.startAt bounded costs
    initialization workspace.scratch workspace'.scratch tally).augmentAll bounded small costs
      ((List.finRange n).take count)
  cases reached.symm.trans reached'
  exact ⟨progress', whole, solveSquare_of_augmentAll_take whole, stored.abreast.matching_eq,
    stored.potentials, stored.unrounded bounded small costs⟩

/-- Whole costs of both signs between two augmentations, with a row that is still free. -/
theorem solveSquare_inRange_halfway :
    let matrix : SquareMatrix ExactCost 2 := ⟨#[finite (-3), finite 1, finite (-5), finite 2], rfl⟩
    let matrix' : SquareMatrix Float 2 := ⟨#[-3, 1, -5, 2], rfl⟩
    matrix.Bounded 5 ∧ matrix.StoredAs matrix' ∧ ∃ scratch scratch',
      (Workspace.empty : Workspace ExactCost).prepare 2 = .ok (2, scratch) ∧
      (Workspace.empty : Workspace Float).prepare 2 = .ok (2, scratch') ∧
      ∃ progress progress',
        (Progress.begin scratch {}).augmentAll matrix [0] = (none, progress) ∧
        (Progress.begin scratch' {}).augmentAll matrix' [0] = (none, progress') ∧
        progress.InRange matrix 5 ∧ progress'.Unrounded matrix' ∧
        progress.scratch.potentials.StoredAs progress'.scratch.potentials ∧
        progress'.scratch.matching.colOf.get 1 = none := by
  intro matrix matrix'
  have bounded : matrix.Bounded 5 := by
    unfold SquareMatrix.Bounded
    decide
  have costs : matrix.StoredAs matrix' := by
    let entries : Fin 2 → Fin 2 → ℤ := ![![-3, 1], ![-5, 2]]
    have exact : ∀ row col, matrix.get row col = finite (entries row col) := by decide
    have whole : ∀ row col, (matrix'.get row col).isFinite = true ∧
        Binary64.units (matrix'.get row col) = entries row col * 2 ^ 1074 := by
      decide +kernel
    exact fun row col => .inr ⟨entries row col, exact row col, (whole row col).1,
      Binary64.value_of_units (whole row col).2⟩
  have prepared : (Workspace.empty : Workspace ExactCost).prepare 2 =
      .ok (2, Scratch.nothing.cleared 2) := rfl
  have prepared' : (Workspace.empty : Workspace Float).prepare 2 =
      .ok (2, Scratch.nothing.cleared 2) := rfl
  obtain ⟨_, progress, reached, _, inRange, inFloat⟩ :=
    solveSquare_inRange bounded .zero prepared {} 1
  obtain ⟨progress', reached', _, _, potentials, unrounded⟩ :=
    inFloat costs (by norm_num) prepared'
  have halfway : (Progress.begin (Scratch.nothing.cleared 2) {}).augmentAll matrix' [0] =
      (none, progress') := reached'
  have free : ((Progress.begin (Scratch.nothing.cleared 2) {}).augmentAll
      matrix' [0]).2.scratch.matching.colOf.get 1 = none := by decide +kernel
  refine ⟨bounded, costs, _, _, prepared, prepared', progress, progress', reached, halfway,
    inRange, unrounded, potentials, ?_⟩
  rwa [halfway] at free

end LinearAssignment
