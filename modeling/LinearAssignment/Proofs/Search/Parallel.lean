import LinearAssignment.Proofs.Search.Round
import Mathlib.Data.List.Forall2

/-! # Two searches side by side

A search decides by comparisons alone, so two searches over one matching take the same course if
they compare alike, even in two arithmetics. `CostNumber.Corresponds` relates costs that are told
apart in the same way; where the lengths of all paths correspond, so do the distances, and
everything else that the two searches know is equal.
-/

namespace LinearAssignment

open CostNumber (infinity isFinite minimum ofNat smaller)

variable {κ κ' : Type} [CostNumber κ] [CostNumber κ'] {same : κ → κ' → Prop}

/-- Costs of two kinds that are told apart in the same way. -/
structure CostNumber.Corresponds (same : κ → κ' → Prop) : Prop where
  infinity : same infinity infinity
  lt_iff : ∀ {a b : κ} {a' b' : κ'}, same a a' → same b b' → (a < b ↔ a' < b')
  beq_eq : ∀ {a b : κ} {a' b' : κ'}, same a a' → same b b' → (a == b) = (a' == b')
  isFinite_eq : ∀ {a : κ} {a' : κ'}, same a a' → isFinite a = isFinite a'

namespace CostNumber.Corresponds

variable (corresponds : CostNumber.Corresponds same)

include corresponds

theorem smaller {a b : κ} {a' b' : κ'} (first : same a a') (second : same b b') :
    same (smaller a b) (smaller a' b') := by
  rw [CostNumber.smaller, CostNumber.smaller]
  by_cases below : b < a
  · rw [if_pos below, if_pos ((corresponds.lt_iff second first).mp below)]
    exact second
  · rw [if_neg below, if_neg (mt (corresponds.lt_iff second first).mpr below)]
    exact first

/-- The smallest of some costs corresponds to the smallest of those that correspond to them. -/
theorem minimum {costs : List κ} {costs' : List κ'} (all : List.Forall₂ same costs costs') :
    same (minimum costs) (minimum costs') := by
  have fold : ∀ {first : κ} {first' : κ'}, same first first' →
      same (costs.foldl CostNumber.smaller first) (costs'.foldl CostNumber.smaller first') := by
    induction all with
    | nil => exact fun start => start
    | cons head _ ih => exact fun start => ih (corresponds.smaller start head)
  exact fold corresponds.infinity

theorem rowMinimum {n : Nat} {matrix : SquareMatrix κ n} {matrix' : SquareMatrix κ' n} {row : Fin n}
    (costs : ∀ col, same (matrix.get row col) (matrix'.get row col)) :
    same (matrix.rowMinimum row) (matrix'.rowMinimum row) := by
  apply corresponds.minimum
  rw [SquareMatrix.row, SquareMatrix.row, List.forall₂_map_left_iff, List.forall₂_map_right_iff]
  exact List.forall₂_same.mpr fun col _ => costs col

end CostNumber.Corresponds

namespace Search

variable {n : Nat} {matrix : SquareMatrix κ n} {matrix' : SquareMatrix κ' n}
  {potentials : Potentials κ n} {potentials' : Potentials κ' n} {matching : Matching n}
  {search before scratch : Search κ n} {search' before' after' scratch' : Search κ' n}
  {origin row col : Fin n} {reached : κ} {reached' : κ'}

/-- Two searches that know the same, at distances that correspond. -/
structure Alike (same : κ → κ' → Prop) (search : Search κ n) (search' : Search κ' n) : Prop where
  distance : ∀ col, same (search.distance.get col) (search'.distance.get col)
  predecessor : search.predecessor = search'.predecessor
  visited : search.visited = search'.visited
  scanned : search.scanned = search'.scanned

/-! ## One round -/

theorem Alike.blank (corresponds : CostNumber.Corresponds same) :
    (blank κ n).Alike same (blank κ' n) where
  distance col := by
    rw [blank_distance, blank_distance]
    exact corresponds.infinity
  predecessor := rfl
  visited := rfl
  scanned := rfl

theorem Alike.improves_eq (corresponds : CostNumber.Corresponds same)
    (alike : search.Alike same search') {length : κ} {length' : κ'} (lengths : same length length')
    (col : Fin n) : search.improves length col = search'.improves length' col := by
  rw [improves, improves, alike.visited]
  congr 1
  exact decide_eq_decide.mpr (corresponds.lt_iff lengths (alike.distance col))

/-- Paths over one row are extended alike. -/
theorem Alike.relax (corresponds : CostNumber.Corresponds same) (alike : search.Alike same search')
    (lengths : ∀ col, same (candidate matrix potentials row reached col)
      (candidate matrix' potentials' row reached' col)) :
    (search.relax matrix potentials row reached).Alike same
      (search'.relax matrix' potentials' row reached') where
  distance col := by
    rw [relax_distance, relax_distance, ← alike.improves_eq corresponds (lengths col)]
    split_ifs
    · exact lengths col
    · exact alike.distance col
  predecessor := by
    refine Vector.ext fun index bound => ?_
    change (search.relax matrix potentials row reached).predecessor.get ⟨index, bound⟩ =
      (search'.relax matrix' potentials' row reached').predecessor.get ⟨index, bound⟩
    rw [relax_predecessor, relax_predecessor, ← alike.improves_eq corresponds (lengths _),
      alike.predecessor]
  visited := alike.visited
  scanned := alike.scanned

/-- The same column is nearest. -/
theorem Alike.nearest?_eq (corresponds : CostNumber.Corresponds same)
    (alike : search.Alike same search') : search.nearest? = search'.nearest? := by
  have step : search.nearer = search'.nearer := by
    funext best col
    cases best with
    | none =>
      have below := corresponds.lt_iff (alike.distance col) corresponds.infinity
      simp only [nearer, alike.visited, decide_eq_decide.mpr below]
    | some other =>
      have below := corresponds.lt_iff (alike.distance col) (alike.distance other)
      simp only [nearer, alike.visited, decide_eq_decide.mpr below]
  rw [nearest?, nearest?, step]

omit [CostNumber κ] [CostNumber κ'] in
theorem Alike.settle (alike : search.Alike same search') (col : Fin n) :
    (search.settle col).Alike same (search'.settle col) where
  distance := alike.distance
  predecessor := alike.predecessor
  visited := by rw [Search.settle, Search.settle, alike.visited]
  scanned := by rw [settle_scanned, settle_scanned, alike.scanned]

/-- Where one of two searches that are alike settles a column, so does the other. -/
theorem Settles.exists_alike (corresponds : CostNumber.Corresponds same)
    (round : Settles matrix' potentials' before' row reached' col after')
    (alike : before.Alike same before')
    (lengths : ∀ col, same (candidate matrix potentials row reached col)
      (candidate matrix' potentials' row reached' col)) :
    ∃ after, Settles matrix potentials before row reached col after ∧ after.Alike same after' := by
  have relaxed := alike.relax corresponds lengths
  refine ⟨_, ⟨?_, ?_, rfl⟩, ?_⟩
  · rw [relaxed.nearest?_eq corresponds, round.nearest]
  · rw [corresponds.isFinite_eq (relaxed.distance col), round.isFinite_nearest]
  · rw [round.after_eq]
    exact relaxed.settle col

/-! ## The whole search -/

/-- How two searches go on from a row: from the one where they began with nothing, from a matched
one at distances that correspond. -/
def GoesOn (same : κ → κ' → Prop) (matching : Matching n) (origin row : Fin n) (reached : κ)
    (reached' : κ') : Prop :=
  row = origin ∧ reached = ofNat 0 ∧ reached' = ofNat 0 ∨
    (∃ col, matching.rowOf.get col = some row) ∧ same reached reached'

/-- Two searches from one row over one matching, in which the lengths of paths correspond. -/
structure Parallel (same : κ → κ' → Prop) (matrix : SquareMatrix κ n)
    (potentials : Potentials κ n) (matrix' : SquareMatrix κ' n) (potentials' : Potentials κ' n)
    (matching : Matching n) (origin : Fin n) : Prop where
  corresponds : CostNumber.Corresponds same
  lengths : ∀ {unsettled search row reached reached'},
    Reachable matrix potentials matching origin unsettled search row reached →
    GoesOn same matching origin row reached reached' →
    ∀ col, same (candidate matrix potentials row reached col)
      (candidate matrix' potentials' row reached' col)

namespace Parallel

variable (parallel : Parallel same matrix potentials matrix' potentials' matching origin)

include parallel

/-- From states that are alike the two searches end alike, at the same column. -/
theorem explore_alike {unsettled : Nat}
    (reachable : Reachable matrix potentials matching origin unsettled search row reached)
    (alike : search.Alike same search')
    (goesOn : GoesOn same matching origin row reached reached') :
    (explore matrix potentials matching unsettled search row reached).1.Alike same
        (explore matrix' potentials' matching unsettled search' row reached').1 ∧
      (explore matrix potentials matching unsettled search row reached).2 =
        (explore matrix' potentials' matching unsettled search' row reached').2 := by
  induction unsettled generalizing search search' row reached reached' with
  | zero => exact ⟨alike, rfl⟩
  | succ unsettled ih =>
    have relaxed := alike.relax parallel.corresponds (parallel.lengths reachable goesOn)
    rw [explore, explore]
    dsimp only
    rw [← relaxed.nearest?_eq parallel.corresponds]
    cases nearest : (search.relax matrix potentials row reached).nearest? with
    | none => exact ⟨relaxed, rfl⟩
    | some col =>
      dsimp only
      rw [← parallel.corresponds.isFinite_eq (relaxed.distance col)]
      split_ifs with finite
      · have settled := relaxed.settle col
        have round : Settles matrix potentials search row reached col _ := ⟨nearest, finite, rfl⟩
        cases owned : matching.rowOf.get col with
        | none => exact ⟨settled, rfl⟩
        | some owner =>
          exact ih (reachable.round round owned) settled
            (.inr ⟨⟨col, owned⟩, relaxed.distance col⟩)
      · exact ⟨relaxed, rfl⟩

/-- Whatever was left by earlier searches, the two end alike, at the same column. -/
theorem fromRow_alike (scratch : Search κ n) (scratch' : Search κ' n) :
    (fromRow matrix potentials matching scratch origin).1.Alike same
        (fromRow matrix' potentials' matching scratch' origin).1 ∧
      (fromRow matrix potentials matching scratch origin).2 =
        (fromRow matrix' potentials' matching scratch' origin).2 := by
  rw [fromRow, fromRow, reset_eq, reset_eq]
  exact parallel.explore_alike .start (.blank parallel.corresponds) (.inl ⟨rfl, rfl, rfl⟩)

theorem exists_fromRow_alike {sink : Fin n} (scratch' : Search κ' n)
    (found : fromRow matrix potentials matching scratch origin = (search, some sink)) :
    ∃ search', fromRow matrix' potentials' matching scratch' origin = (search', some sink) ∧
      search.Alike same search' := by
  obtain ⟨alike, end_eq⟩ := parallel.fromRow_alike scratch scratch'
  rw [found] at alike end_eq
  exact ⟨_, Prod.ext rfl end_eq.symm, alike⟩

/-- Every state of the second search is alike to one of the first. -/
theorem exists_reachable_alike {unsettled : Nat}
    (reachable' : Reachable matrix' potentials' matching origin unsettled search' row reached') :
    ∃ search reached, Reachable matrix potentials matching origin unsettled search row reached ∧
      search.Alike same search' ∧ GoesOn same matching origin row reached reached' := by
  induction reachable' with
  | start => exact ⟨_, _, .start, .blank parallel.corresponds, .inl ⟨rfl, rfl, rfl⟩⟩
  | @round _ before' after' row col owner reached' _ round' owned ih =>
    obtain ⟨before, reached, reachable, alike, goesOn⟩ := ih
    obtain ⟨after, round, alike'⟩ := round'.exists_alike parallel.corresponds alike
      (parallel.lengths reachable goesOn)
    exact ⟨after, _, reachable.round round owned, alike',
      .inr ⟨⟨col, owned⟩, alike'.distance col⟩⟩

end Parallel

omit [CostNumber κ] [CostNumber κ'] in
/-- Searches that are alike hand over the same paths. -/
theorem Alike.path_eq (alike : search.Alike same search') (matching : Matching n)
    (origin col : Fin n) : search.path matching origin col = search'.path matching origin col := by
  have walk : ∀ budget col, search.pathBack matching origin budget col =
      search'.pathBack matching origin budget col := by
    intro budget
    induction budget with
    | zero => exact fun _ => rfl
    | succ budget ih =>
      intro col
      simp only [pathBack, alike.predecessor, ih]
  rw [path, path, alike.scanned, walk]

end Search

end LinearAssignment
