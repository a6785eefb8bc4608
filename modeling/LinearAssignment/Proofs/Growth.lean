import LinearAssignment.Proofs.Checked.Solve

/-! # An augmentation matches one more row or changes nothing

The exchange of the pairs along a path overwrites both sides of the matching step by step, and they
do not agree before it has come back to the row where the search began. Then the matched rows are
the ones before and this row, and the matched columns are the ones before and the end of the search.
A search that ends nowhere is noticed before anything but the search itself has been written. None
of this depends on the arithmetic.
-/

namespace LinearAssignment

variable {κ : Type} {n : Nat}

namespace Matching

/-- The rows that have a column. -/
def rows (matching : Matching n) : Set (Fin n) := {row | matching.colOf.get row ≠ none}

/-- The columns that have a row. -/
def cols (matching : Matching n) : Set (Fin n) := {col | matching.rowOf.get col ≠ none}

variable {before after : Matching n} {row col : Fin n}

theorem Grows.rows_eq (grows : before.Grows after row col) :
    after.rows = insert row before.rows := by
  ext other
  have free := grows.colOf_eq_none_iff other
  simp only [rows, Set.mem_ofPred_eq, Set.mem_insert_iff]
  tauto

theorem Grows.cols_eq (grows : before.Grows after row col) :
    after.cols = insert col before.cols := by
  ext other
  have free := grows.rowOf_eq_none_iff other
  simp only [cols, Set.mem_ofPred_eq, Set.mem_insert_iff]
  tauto

end Matching

variable [CostNumber κ] {matrix : SquareMatrix κ n} {progress : Progress κ n} {row : Fin n}

/-- An augmentation of a free row either matches it, and with it exactly one column that was free,
the end of its search; or it reports the row as stranded and leaves the matching and the potentials
as they were. The in-place exchange of pairs, and the loops without a bound, have the same
outcome. -/
theorem augment_grows_or_keeps [LawfulCost κ] (consistent : progress.scratch.matching.Consistent)
    (free : progress.scratch.matching.colOf.get row = none) :
    (∃ next sink, progress.augment matrix row = (true, next) ∧
        progress.augmentChecked matrix row = some (true, next) ∧
        next.scratch.search.scanned.back? = some sink ∧
        progress.scratch.matching.rowOf.get sink = none ∧
        next.scratch.matching.Consistent ∧
        next.scratch.matching.rows = insert row progress.scratch.matching.rows ∧
        next.scratch.matching.cols = insert sink progress.scratch.matching.cols) ∨
      ∃ next, progress.augment matrix row = (false, next) ∧
        progress.augmentChecked matrix row = some (false, next) ∧
        (∀ rest, progress.augmentAll matrix (row :: rest) = (some row, next)) ∧
        next.scratch.matching = progress.scratch.matching ∧
        next.scratch.potentials = progress.scratch.potentials := by
  have checked : progress.augmentChecked matrix row = some (progress.augment matrix row) :=
    Progress.augmentChecked_eq consistent free
  rcases Progress.augment_cases matrix row progress with
    ⟨search, sink, found, outcome⟩ | ⟨search, _, outcome⟩
  · obtain ⟨_, _, freeSink, _⟩ := Search.fromRow_found consistent found
    have grows := Matching.grows_assignAll_path consistent free found
    rw [outcome] at checked
    exact .inl ⟨_, sink, outcome, checked, Search.back?_of_fromRow found, freeSink,
      grows.consistent, grows.rows_eq, grows.cols_eq⟩
  · rw [outcome] at checked
    refine .inr ⟨_, outcome, checked, fun rest => ?_, rfl, rfl⟩
    rw [Progress.augmentAll, if_pos (Matching.isFreeRow_iff.mpr free), outcome]

/-- The second row gains more from the first column than the first row, which has to go on to the
second column. -/
theorem augment_grows_or_keeps_reassigned :
    let matrix : SquareMatrix Float 2 := ⟨#[1, 2, 0, 10], rfl⟩
    let progress := (Progress.begin (Scratch.nothing.cleared 2) {}).augmentAll matrix [0]
    progress.2.scratch.matching.Consistent ∧ progress.2.scratch.matching.colOf.get 1 = none ∧
      ∃ next sink, progress.2.augment matrix 1 = (true, next) ∧
        next.scratch.matching.Consistent ∧
        next.scratch.matching.rows = insert 1 progress.2.scratch.matching.rows ∧
        next.scratch.matching.cols = insert sink progress.2.scratch.matching.cols := by
  intro matrix progress
  have consistent : progress.2.scratch.matching.Consistent := by
    unfold Matching.Consistent
    decide +kernel
  have free : progress.2.scratch.matching.colOf.get 1 = none := by decide +kernel
  have finds : (progress.2.augment matrix 1).1 = true := by decide +kernel
  refine ⟨consistent, free, ?_⟩
  rcases @augment_grows_or_keeps _ _ _ matrix _ _ _ consistent free with
    ⟨next, sink, outcome, _, _, _, consistent', rows, cols⟩ | ⟨next, outcome, _⟩
  · exact ⟨next, sink, outcome, consistent', rows, cols⟩
  · rw [outcome] at finds
    contradiction

end LinearAssignment
