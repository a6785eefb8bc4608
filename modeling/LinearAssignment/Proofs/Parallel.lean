import LinearAssignment.Proofs.Augmentation
import LinearAssignment.Proofs.Search.Parallel
import LinearAssignment.SquareSolution

/-! # Two solves side by side

Two solves with the same matching and the same figures stay abreast as long as their searches
compare alike: the start claims the same columns where the same pairs attain the row minima, and an
augmentation exchanges the same pairs. What holds of their potentials is left to the two squares.
-/

namespace LinearAssignment.Progress

variable {κ κ' : Type} [CostNumber κ] [CostNumber κ'] {n : Nat} {same : κ → κ' → Prop}
  {matrix : SquareMatrix κ n} {matrix' : SquareMatrix κ' n} {progress next : Progress κ n}
  {progress' : Progress κ' n} {row sink : Fin n} {search : Search κ n} {search' : Search κ' n}

/-- Two solves under way that have matched the same pairs and have the same figures. -/
structure Abreast (progress : Progress κ n) (progress' : Progress κ' n) : Prop where
  matching_eq : progress'.scratch.matching = progress.scratch.matching
  tally_eq : progress'.tally = progress.tally

/-! ## The start -/

theorem tightColumn?_eq (matching : Matching n) (tests : ∀ row col,
      (matrix'.get row col == matrix'.rowMinimum row) =
        (matrix.get row col == matrix.rowMinimum row)) (row : Fin n) :
    matching.tightColumn? matrix' row = matching.tightColumn? matrix row := by
  simp only [Matching.tightColumn?, tests]

theorem Abreast.reduceRow (abreast : progress.Abreast progress') (tests : ∀ row col,
      (matrix'.get row col == matrix'.rowMinimum row) =
        (matrix.get row col == matrix.rowMinimum row)) (row : Fin n) :
    (progress.reduceRow matrix row).Abreast (progress'.reduceRow matrix' row) := by
  have claim : progress'.scratch.matching.tightColumn? matrix' row =
      progress.scratch.matching.tightColumn? matrix row := by
    rw [abreast.matching_eq, tightColumn?_eq _ tests]
  cases claimed : progress.scratch.matching.tightColumn? matrix row with
  | none =>
    rw [claimed] at claim
    simp only [Progress.reduceRow, claimed, claim]
    exact ⟨abreast.matching_eq, abreast.tally_eq⟩
  | some col =>
    rw [claimed] at claim
    simp only [Progress.reduceRow, claimed, claim]
    exact ⟨congrArg (·.assign row col) abreast.matching_eq,
      congrArg Tally.countGreedy abreast.tally_eq⟩

/-- Both starts keep two solves abreast if the same pairs attain the row minima. -/
theorem Abreast.startAt (abreast : progress.Abreast progress') (tests : ∀ row col,
      (matrix'.get row col == matrix'.rowMinimum row) =
        (matrix.get row col == matrix.rowMinimum row)) (initialization : DualStart) :
    (progress.startAt matrix initialization).Abreast
      (progress'.startAt matrix' initialization) := by
  cases initialization with
  | zero => exact abreast
  | rowReduction =>
    have all : ∀ rows : List (Fin n), (rows.foldl (Progress.reduceRow matrix) progress).Abreast
        (rows.foldl (Progress.reduceRow matrix') progress') := by
      intro rows
      induction rows using List.reverseRecOn with
      | nil => exact abreast
      | append_singleton done row ih =>
        rw [List.foldl_append, List.foldl_append]
        exact ih.reduceRow tests row
    exact all (List.finRange n)

/-- Two solves begin abreast on cleared scratch. -/
theorem Abreast.begin {m m' : Nat} (scratch : Scratch κ m) (scratch' : Scratch κ' m')
    (tally : Tally) :
    (Progress.begin (scratch.cleared n) tally).Abreast
      (Progress.begin (scratch'.cleared n) tally) :=
  ⟨rfl, rfl⟩

/-! ## Augmentations -/

theorem Abreast.afterPath (abreast : progress.Abreast progress')
    (alike : search.Alike same search') (row sink : Fin n) :
    (progress.afterPath search row sink).Abreast (progress'.afterPath search' row sink) where
  matching_eq := by
    simp only [Progress.afterPath, abreast.matching_eq, alike.path_eq]
  tally_eq := by
    simp only [Progress.afterPath, abreast.tally_eq, alike.scanned]

/-- Where the lengths of paths correspond, two solves find the same path. -/
theorem Abreast.augment (abreast : progress.Abreast progress')
    (parallel : Search.Parallel same matrix progress.scratch.potentials matrix'
      progress'.scratch.potentials progress.scratch.matching row)
    (found : Search.fromRow matrix progress.scratch.potentials progress.scratch.matching
      progress.scratch.search row = (search, some sink)) :
    ∃ search', Search.fromRow matrix' progress'.scratch.potentials progress'.scratch.matching
        progress'.scratch.search row = (search', some sink) ∧
      search.Alike same search' ∧
      progress.augment matrix row = (true, progress.afterPath search row sink) ∧
      progress'.augment matrix' row = (true, progress'.afterPath search' row sink) := by
  obtain ⟨search', found', alike⟩ :=
    parallel.exists_fromRow_alike progress'.scratch.search found
  rw [← abreast.matching_eq] at found'
  exact ⟨search', found', alike, augment_of_found found, augment_of_found found'⟩

/-- What holds of two solves at the start and is kept by every pair of augmentations, none of which
fails, holds at the end. -/
theorem augmentAll_abreast {Holds : Progress κ n → Progress κ' n → Prop}
    (abreast : ∀ {progress progress'}, Holds progress progress' → progress.Abreast progress')
    (step : ∀ {progress progress' row}, Holds progress progress' →
      progress.scratch.matching.colOf.get row = none →
        ∃ next next', progress.augment matrix row = (true, next) ∧
          progress'.augment matrix' row = (true, next') ∧ Holds next next')
    (rows : List (Fin n)) (holds : Holds progress progress') :
    ∃ final final', progress.augmentAll matrix rows = (none, final) ∧
      progress'.augmentAll matrix' rows = (none, final') ∧ Holds final final' := by
  induction rows generalizing progress progress' with
  | nil => exact ⟨progress, progress', rfl, rfl, holds⟩
  | cons row rest ih =>
    rw [augmentAll, augmentAll, (abreast holds).matching_eq]
    split_ifs with isFree
    · obtain ⟨next, next', outcome, outcome', kept⟩ := step holds (Matching.isFreeRow_iff.mp isFree)
      rw [outcome, outcome']
      exact ih kept
    · exact ih holds

end LinearAssignment.Progress
