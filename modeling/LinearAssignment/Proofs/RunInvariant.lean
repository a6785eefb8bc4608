import LinearAssignment.Proofs.Optimality

/-! # What holds between augmentations

In exact arithmetic the potentials price the matching not only at the end of a solve but after every
augmentation. Where the start was a row reduction they are feasible for the whole square; from zero
potentials a row that is still free may have negative reduced costs. In both cases the matching is a
cheapest one of the rows that it has come to: columns have no positive potentials, and free columns
have none at all, so no choice of columns is worth less than all of them together.
-/

namespace LinearAssignment

open ExactCost (finite)

variable {n : Nat} {matrix : SquareMatrix ExactCost n} {potentials : Potentials ExactCost n}
  {matching : Matching n} {progress next : Progress ExactCost n} {row : Fin n}
  {initialization : DualStart}

/-! ## Cheapest partial matchings -/

namespace Matching

/-- The rows that have a column. -/
abbrev MatchedRow (matching : Matching n) : Type :=
  {row : Fin n // (matching.colOf.get row).isSome = true}

/-- The column of a matched row. -/
def partner (matching : Matching n) (row : matching.MatchedRow) : Fin n :=
  (matching.colOf.get row).get row.property

theorem colOf_partner (matching : Matching n) (row : matching.MatchedRow) :
    matching.colOf.get row = some (matching.partner row) :=
  (Option.some_get row.property).symm

/-- The matched rows have columns of their own, and no other choice of columns for them costs
less. -/
structure Cheapest (matching : Matching n) (matrix : SquareMatrix ExactCost n) : Prop where
  injective : Function.Injective matching.partner
  le : ∀ image : matching.MatchedRow → Fin n, Function.Injective image →
    ∑ row, (matrix.get row.val (matching.partner row)).value ≤
      ∑ row, (matrix.get row.val (image row)).value

theorem Consistent.partner_injective (consistent : matching.Consistent) :
    Function.Injective matching.partner := by
  intro row other same
  apply Subtype.ext
  apply consistent.row_unique (matching.colOf_partner row)
  rw [same]
  exact matching.colOf_partner other

/-- A column that is not the partner of a row is free. -/
theorem Consistent.rowOf_eq_none (consistent : matching.Consistent) {col : Fin n}
    (unpartnered : ∀ row, matching.partner row ≠ col) : matching.rowOf.get col = none := by
  by_contra owned
  obtain ⟨row, owner⟩ := Option.ne_none_iff_exists'.mp owned
  have paired := (consistent row col).mpr owner
  have matched : (matching.colOf.get row).isSome = true := by rw [paired]; rfl
  apply unpartnered ⟨row, matched⟩
  exact Option.some.inj ((matching.colOf_partner ⟨row, matched⟩).symm.trans paired)

end Matching

namespace Priced

/-- No choice of columns is worth less than all columns. -/
theorem sum_col_le (priced : Priced matrix potentials matching) {ι : Type} [Fintype ι]
    {image : ι → Fin n} (injective : Function.Injective image) :
    ∑ col, (potentials.col.get col).value ≤ ∑ index, (potentials.col.get (image index)).value := by
  have chosen : ∑ index, (potentials.col.get (image index)).value =
      ∑ col ∈ Finset.univ.image image, (potentials.col.get col).value := by
    rw [Finset.sum_image]
    intro index _ other _ same
    exact injective same
  have left : ∑ col ∈ (Finset.univ.image image)ᶜ, (potentials.col.get col).value ≤ 0 :=
    Finset.sum_nonpos fun col _ => priced.col_nonpos col
  rw [chosen, ← Finset.sum_add_sum_compl (Finset.univ.image image)]
  linarith

/-- The columns of the matched rows are worth as much as all columns. -/
theorem sum_col_partner (priced : Priced matrix potentials matching) :
    ∑ row, (potentials.col.get (matching.partner row)).value =
      ∑ col, (potentials.col.get col).value := by
  have chosen : ∑ row, (potentials.col.get (matching.partner row)).value =
      ∑ col ∈ Finset.univ.image matching.partner, (potentials.col.get col).value := by
    rw [Finset.sum_image]
    intro row _ other _ same
    exact priced.consistent.partner_injective same
  rw [chosen]
  apply Finset.sum_subset (Finset.subset_univ _)
  intro col _ outside
  apply priced.col_free
  apply priced.consistent.rowOf_eq_none
  intro row same
  exact outside (Finset.mem_image.mpr ⟨row, Finset.mem_univ row, same⟩)

/-- A priced matching is a cheapest one of its rows. -/
theorem cheapest (priced : Priced matrix potentials matching) : matching.Cheapest matrix := by
  refine ⟨priced.consistent.partner_injective, fun image injective => ?_⟩
  have tight : ∑ row : matching.MatchedRow,
      reduced matrix potentials row.val (matching.partner row) = 0 :=
    Finset.sum_eq_zero fun row _ => priced.tight row _ (matching.colOf_partner row)
  have feasible : 0 ≤ ∑ row : matching.MatchedRow,
      reduced matrix potentials row.val (image row) := by
    apply Finset.sum_nonneg
    intro row _
    apply priced.feasible row.val
    rw [matching.colOf_partner row]
    exact Option.some_ne_none _
  have worth := priced.sum_col_le injective
  rw [sum_value_of_pairs matrix potentials Subtype.val matching.partner,
    sum_value_of_pairs matrix potentials Subtype.val image, tight, priced.sum_col_partner]
  linarith

end Priced

/-! ## The invariant -/

namespace Progress

/-- What holds of a solve in exact arithmetic whenever no augmentation is under way. -/
structure Invariant (progress : Progress ExactCost n) (matrix : SquareMatrix ExactCost n)
    (initialization : DualStart) : Prop where
  priced : Priced matrix progress.scratch.potentials progress.scratch.matching
  feasible : initialization = .rowReduction →
    ∀ row col, 0 ≤ reduced matrix progress.scratch.potentials row col

/-- Both starts establish the invariant. -/
theorem Invariant.startAt {m : Nat} (rational : matrix.Rational) (initialization : DualStart)
    (scratch : Scratch ExactCost m) (tally : Tally) :
    ((Progress.begin (scratch.cleared n) tally).startAt matrix initialization).Invariant matrix
      initialization := by
  have reduced := Reduced.startAt matrix initialization scratch tally
  refine ⟨reduced.isPriced rational, ?_⟩
  rintro rfl row col
  exact reduced.reduced_nonneg rational (List.mem_finRange row) col

/-- An augmentation leaves no row a negative reduced cost that had none. -/
theorem IsPriced.feasible_of_augment (priced : progress.IsPriced matrix)
    (rational : matrix.Rational) (free : progress.scratch.matching.colOf.get row = none)
    (outcome : progress.augment matrix row = (true, next)) {other : Fin n}
    (feasible : ∀ col, 0 ≤ reduced matrix progress.scratch.potentials other col) (col : Fin n) :
    0 ≤ reduced matrix next.scratch.potentials other col := by
  obtain ⟨search, sink, length, found, ended⟩ :=
    priced.exists_ended rational free progress.scratch.search
  cases outcome.symm.trans (augment_of_found found)
  exact ended.reduced_shifted_nonneg (.inr feasible) col

/-- An augmentation finds a path and keeps the invariant. -/
theorem Invariant.augment (invariant : progress.Invariant matrix initialization)
    (rational : matrix.Rational) (free : progress.scratch.matching.colOf.get row = none) :
    ∃ next, progress.augment matrix row = (true, next) ∧ next.Invariant matrix initialization := by
  obtain ⟨next, outcome, priced⟩ := IsPriced.augment invariant.priced rational free
  refine ⟨next, outcome, priced, fun start other col => ?_⟩
  exact IsPriced.feasible_of_augment invariant.priced rational free outcome
    (invariant.feasible start other) col

/-- So do all augmentations, one after the other. -/
theorem Invariant.augmentAll (rational : matrix.Rational) (rows : List (Fin n))
    (invariant : progress.Invariant matrix initialization) :
    ∃ final, progress.augmentAll matrix rows = (none, final) ∧
      final.Invariant matrix initialization :=
  augmentAll_of_step (fun invariant free => invariant.augment rational free) rows invariant

end Progress

/-- Whenever a solve of a square in exact arithmetic has come through some of its rows, the
potentials price the matching, are feasible for all rows if it began with a row reduction, and make
the matching a cheapest one of its rows; and the solve goes on from there. With no row it is the
state right after the start, and with every further row the one after the augmentation of that
row. -/
theorem solveSquare_invariant (rational : matrix.Rational) (initialization : DualStart)
    {workspace : Workspace ExactCost} {capacity : Nat} {scratch : Scratch ExactCost n}
    (prepared : workspace.prepare n = .ok (capacity, scratch)) (tally : Tally) (count : Nat) :
    ∃ progress : Progress ExactCost n,
      ((Progress.begin scratch tally).startAt matrix initialization).augmentAll matrix
        ((List.finRange n).take count) = (none, progress) ∧
      solveSquare matrix initialization scratch tally =
        progress.augmentAll matrix ((List.finRange n).drop count) ∧
      progress.Invariant matrix initialization ∧
      progress.scratch.matching.Cheapest matrix := by
  obtain rfl := Workspace.eq_cleared_of_prepare prepared
  have start := Progress.Invariant.startAt rational initialization workspace.scratch tally
  obtain ⟨progress, reached, invariant⟩ :=
    start.augmentAll rational ((List.finRange n).take count)
  refine ⟨progress, reached, ?_, invariant, invariant.priced.cheapest⟩
  rw [solveSquare, ← Progress.augmentAll_append _ reached, List.take_append_drop]

/-- After the first of two augmentations from zero potentials, the row that is still free has a
negative reduced cost, and yet the matching is a cheapest one of its row. -/
theorem solveSquare_invariant_halfway :
    let matrix : SquareMatrix ExactCost 2 :=
      ⟨#[finite (-3), finite 1, finite (-5), finite (1 / 2)], rfl⟩
    matrix.Rational ∧ ∃ scratch, Workspace.empty.prepare 2 = .ok (2, scratch) ∧
      ∃ progress : Progress ExactCost 2,
        (Progress.begin scratch {}).augmentAll matrix [0] = (none, progress) ∧
        solveSquare matrix .zero scratch {} = progress.augmentAll matrix [1] ∧
        progress.Invariant matrix .zero ∧ progress.scratch.matching.Cheapest matrix ∧
        reduced matrix progress.scratch.potentials 1 0 = -5 := by
  intro matrix
  have rational : matrix.Rational := by
    unfold SquareMatrix.Rational
    decide
  have prepared : (Workspace.empty : Workspace ExactCost).prepare 2 =
      .ok (2, Scratch.nothing.cleared 2) := rfl
  obtain ⟨progress, augmented, goesOn, invariant, cheapest⟩ :=
    solveSquare_invariant rational .zero prepared {} 1
  have reached : (Progress.begin (Scratch.nothing.cleared 2) {}).augmentAll matrix [0] =
      (none, progress) := augmented
  have negative : reduced matrix ((Progress.begin (Scratch.nothing.cleared 2) {}).augmentAll
      matrix [0]).2.scratch.potentials 1 0 = -5 := by decide +kernel
  refine ⟨rational, _, prepared, progress, reached, goesOn, invariant, cheapest, ?_⟩
  rwa [reached] at negative

end LinearAssignment
