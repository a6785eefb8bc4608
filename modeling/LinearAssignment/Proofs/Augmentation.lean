import LinearAssignment.Augmentation
import LinearAssignment.Proofs.Search.Path

/-! # Augmentations grow the matching

An augmentation that finds a path matches its row and one column that was free, and loses nothing;
one that finds none changes neither potentials nor matching. So the rows that a solve comes to are
exactly the ones that it matches. None of this depends on the arithmetic.
-/

namespace LinearAssignment

variable {κ : Type} [CostNumber κ] {n : Nat} {matrix : SquareMatrix κ n}
  {progress next final : Progress κ n} {row col sink : Fin n} {search : Search κ n}

/-- A matching that matches one more row and one more column. -/
structure Matching.Grows (before after : Matching n) (row col : Fin n) : Prop where
  consistent : after.Consistent
  colOf_eq_none_iff : ∀ other,
    after.colOf.get other = none ↔ before.colOf.get other = none ∧ other ≠ row
  rowOf_eq_none_iff : ∀ other,
    after.rowOf.get other = none ↔ before.rowOf.get other = none ∧ other ≠ col

/-- Exchanging the pairs of a path that a search has found matches both of its ends. -/
theorem Matching.grows_assignAll_path [LawfulCost κ] {potentials : Potentials κ n}
    {matching : Matching n} {scratch : Search κ n} (consistent : matching.Consistent)
    (free : matching.colOf.get row = none)
    (found : Search.fromRow matrix potentials matching scratch row = (search, some sink)) :
    matching.Grows (matching.assignAll (search.path matching row sink)) row sink := by
  obtain ⟨traced, visited, freeSink, matched⟩ := Search.fromRow_found consistent found
  have reached := traced.pathTo_path visited
  refine ⟨?_, fun other => ?_, fun other => ?_⟩
  · exact reached.assignAll_consistent free (consistent.consistentBut freeSink) fun _ _ => rfl
  · rw [colOf_assignAll_eq_none_iff]
    refine and_congr_right fun freeRow => ⟨?_, fun notOrigin pair member same => ?_⟩
    · rintro untouched rfl
      obtain ⟨last, member⟩ := reached.exists_origin
      exact untouched _ member rfl
    · subst same
      rcases reached.origin_or_owner member with isOrigin | ⟨next, _, owned, _⟩
      · exact notOrigin isOrigin
      · rw [freeRow] at owned
        contradiction
  · rw [rowOf_assignAll_eq_none_iff]
    refine and_congr_right fun freeCol => ⟨?_, fun notSink pair member same => ?_⟩
    · rintro untouched rfl
      obtain ⟨first, member⟩ := reached.exists_head
      exact untouched _ member rfl
    · subst same
      rcases matched _ (reached.settled member).1 with isSink | owned
      · exact notSink isSink
      · exact owned freeCol

namespace Progress

/-! ## One augmentation -/

/-- What an augmentation leaves behind when its search ends at a column. -/
def afterPath (progress : Progress κ n) (search : Search κ n) (row sink : Fin n) : Progress κ n :=
  let matching := progress.scratch.matching
  let flipped := matching.assignAll (search.path matching row sink)
  { scratch :=
      ⟨progress.scratch.potentials.shifted search matching row sink, search, flipped⟩
    tally := (progress.tally.countScans search.scanned.size).countAugmentation
    log := progress.log.push (.augmented row ((flipped.colOf.get row).getD sink)
      search.scanned.size (search.distance.get sink)) }

/-- What an augmentation leaves behind when its search ends nowhere. -/
def afterSearch (progress : Progress κ n) (search : Search κ n) : Progress κ n :=
  { progress with
    scratch := ⟨progress.scratch.potentials, search, progress.scratch.matching⟩ }

theorem augment_of_found (found : Search.fromRow matrix progress.scratch.potentials
      progress.scratch.matching progress.scratch.search row = (search, some sink)) :
    progress.augment matrix row = (true, progress.afterPath search row sink) := by
  simp only [augment, found, afterPath]

/-- An augmentation does one of two things, as its search decides. -/
theorem augment_cases (matrix : SquareMatrix κ n) (row : Fin n) (progress : Progress κ n) :
    (∃ search sink,
      Search.fromRow matrix progress.scratch.potentials progress.scratch.matching
          progress.scratch.search row = (search, some sink) ∧
        progress.augment matrix row = (true, progress.afterPath search row sink)) ∨
    ∃ search,
      Search.fromRow matrix progress.scratch.potentials progress.scratch.matching
          progress.scratch.search row = (search, none) ∧
        progress.augment matrix row = (false, progress.afterSearch search) := by
  rcases found : Search.fromRow matrix progress.scratch.potentials progress.scratch.matching
    progress.scratch.search row with ⟨search, _ | sink⟩
  · exact .inr ⟨search, rfl, by simp only [augment, found, afterSearch]⟩
  · exact .inl ⟨search, sink, rfl, augment_of_found found⟩

/-- An augmentation that finds a path matches its row and one free column. -/
theorem grows_of_augment [LawfulCost κ] (consistent : progress.scratch.matching.Consistent)
    (free : progress.scratch.matching.colOf.get row = none)
    (success : progress.augment matrix row = (true, next)) :
    ∃ col, progress.scratch.matching.Grows next.scratch.matching row col := by
  rcases augment_cases matrix row progress with ⟨search, sink, found, outcome⟩ | ⟨_, _, outcome⟩
  · rw [success] at outcome
    cases outcome
    exact ⟨sink, Matching.grows_assignAll_path consistent free found⟩
  · rw [success] at outcome
    cases outcome

/-! ## All augmentations -/

/-- Further rows are matched from where the rows before them have led to. -/
theorem augmentAll_append {first : List (Fin n)} (rest : List (Fin n))
    (success : augmentAll matrix first progress = (none, next)) :
    augmentAll matrix (first ++ rest) progress = augmentAll matrix rest next := by
  induction first generalizing progress with
  | nil =>
    cases success
    rfl
  | cons row first ih =>
    rw [augmentAll] at success
    rw [List.cons_append, augmentAll]
    split_ifs at success ⊢
    · rcases outcome : progress.augment matrix row with ⟨_ | _, middle⟩
      · simp [outcome] at success
      · rw [outcome] at success
        exact ih success
    · exact ih success

/-- What holds at the start and is kept by every augmentation, none of which fails, holds at the
end. -/
theorem augmentAll_of_step {Holds : Progress κ n → Prop}
    (step : ∀ {progress row}, Holds progress → progress.scratch.matching.colOf.get row = none →
      ∃ next, progress.augment matrix row = (true, next) ∧ Holds next)
    (rows : List (Fin n)) (holds : Holds progress) :
    ∃ final, progress.augmentAll matrix rows = (none, final) ∧ Holds final := by
  induction rows generalizing progress with
  | nil => exact ⟨progress, rfl, holds⟩
  | cons row rest ih =>
    rw [augmentAll]
    split_ifs with isFree
    · obtain ⟨next, outcome, kept⟩ := step holds (Matching.isFreeRow_iff.mp isFree)
      rw [outcome]
      exact ih kept
    · exact ih holds

/-- What every augmentation that finds a path keeps holds at the end if all paths are found. -/
theorem augmentAll_keeps {Holds : Progress κ n → Prop}
    (step : ∀ {progress next row}, Holds progress →
      progress.scratch.matching.colOf.get row = none →
        progress.augment matrix row = (true, next) → Holds next)
    {rows : List (Fin n)} (holds : Holds progress)
    (success : augmentAll matrix rows progress = (none, final)) : Holds final := by
  induction rows generalizing progress with
  | nil =>
    cases success
    exact holds
  | cons row rest ih =>
    rw [augmentAll] at success
    split_ifs at success with isFree
    · rcases outcome : progress.augment matrix row with ⟨_ | _, next⟩
      · simp [outcome] at success
      · rw [outcome] at success
        exact ih (step holds (Matching.isFreeRow_iff.mp isFree) outcome) success
    · exact ih holds success

/-- If every path is found, the rows that were given are matched, and all that were. -/
theorem consistent_of_augmentAll [LawfulCost κ] {rows : List (Fin n)}
    (consistent : progress.scratch.matching.Consistent)
    (success : augmentAll matrix rows progress = (none, final)) :
    final.scratch.matching.Consistent ∧ ∀ row, final.scratch.matching.colOf.get row = none ↔
      progress.scratch.matching.colOf.get row = none ∧ row ∉ rows := by
  induction rows generalizing progress with
  | nil =>
    cases success
    simpa using consistent
  | cons head rest ih =>
    rw [augmentAll] at success
    by_cases free : progress.scratch.matching.colOf.get head = none
    · rw [if_pos (Matching.isFreeRow_iff.mpr free)] at success
      rcases outcome : progress.augment matrix head with ⟨_ | _, next⟩
      · simp [outcome] at success
      · obtain ⟨col, grows⟩ := grows_of_augment consistent free outcome
        rw [outcome] at success
        obtain ⟨consistent', unmatched⟩ := ih grows.consistent success
        refine ⟨consistent', fun row => ?_⟩
        rw [unmatched, grows.colOf_eq_none_iff, List.mem_cons, not_or, and_assoc]
    · rw [if_neg (mt Matching.isFreeRow_iff.mp free)] at success
      obtain ⟨consistent', unmatched⟩ := ih consistent success
      refine ⟨consistent', fun row => ?_⟩
      rw [unmatched, List.mem_cons, not_or]
      refine and_congr_right fun freeRow => ⟨fun outside => ⟨?_, outside⟩, And.right⟩
      rintro rfl
      exact free freeRow

/-! ## Exclusions are not counted -/

theorem excludedByLimit_augment (matrix : SquareMatrix κ n) (row : Fin n)
    (progress : Progress κ n) :
    (progress.augment matrix row).2.tally.metrics.excludedByLimit =
      progress.tally.metrics.excludedByLimit := by
  rcases augment_cases matrix row progress with ⟨_, _, _, outcome⟩ | ⟨_, _, outcome⟩
  · rw [outcome]
    rfl
  · rw [outcome]
    rfl

theorem excludedByLimit_augmentAll (matrix : SquareMatrix κ n) (rows : List (Fin n))
    (progress : Progress κ n) :
    (augmentAll matrix rows progress).2.tally.metrics.excludedByLimit =
      progress.tally.metrics.excludedByLimit := by
  induction rows generalizing progress with
  | nil => rfl
  | cons row rest ih =>
    have step := excludedByLimit_augment matrix row progress
    rw [augmentAll]
    split_ifs
    · rcases outcome : progress.augment matrix row with ⟨_ | _, next⟩
      · rwa [outcome] at step
      · rw [outcome] at step
        exact (ih next).trans step
    · exact ih progress

end Progress

end LinearAssignment
