import LinearAssignment.Proofs.Matching
import LinearAssignment.Search

/-! # The rounds of a search

A round extends the paths from one row and settles the nearest column. `Search.Settles` is one
round, and `Settles.label` says once what it can do to a column. `Search.Reachable` are the states
between rounds. Every search ends with a round at a free column, or in a state in which no round is
possible.
-/

namespace LinearAssignment.Search

open CostNumber (infinity isFinite ofNat)

variable {κ : Type} {n : Nat}

/-! ## What is read after each part of a round -/

section

variable {search : Search κ n} {col : Fin n}

@[simp] theorem settle_distance : (search.settle col).distance = search.distance := rfl

@[simp] theorem settle_predecessor : (search.settle col).predecessor = search.predecessor := rfl

@[simp] theorem settle_scanned : (search.settle col).scanned = search.scanned.push col := rfl

theorem settle_visited (other : Fin n) :
    (search.settle col).visited.get other = true ↔
      search.visited.get other = true ∨ other = col := by
  have written := get_set search.visited col other true
  change (search.settle col).visited.get other = _ at written
  rw [written]
  split_ifs with same <;> simp [same]

private theorem lengths_get (length : Fin n → κ) (col : Fin n) :
    (Vector.ofFn length).get col = length col :=
  Vector.getElem_ofFn col.isLt

end

variable [CostNumber κ] {matrix : SquareMatrix κ n} {potentials : Potentials κ n}
  {matching : Matching n} {search before after : Search κ n} {origin row col : Fin n} {reached : κ}

/-- What a search knows before its first round. -/
def blank (κ : Type) [CostNumber κ] (n : Nat) : Search κ n where
  distance := Vector.replicate n infinity
  predecessor := Vector.replicate n none
  visited := Vector.replicate n false
  scanned := #[]

/-- Nothing of an earlier search is left. -/
theorem reset_eq {m : Nat} (search : Search κ m) (n : Nat) : search.reset n = blank κ n := by
  simp only [reset, refill_eq, blank]

@[simp] theorem blank_distance (col : Fin n) : (blank κ n).distance.get col = infinity :=
  Vector.getElem_replicate col.isLt

@[simp] theorem blank_predecessor (col : Fin n) : (blank κ n).predecessor.get col = none :=
  Vector.getElem_replicate col.isLt

@[simp] theorem blank_visited (col : Fin n) : (blank κ n).visited.get col = false :=
  Vector.getElem_replicate col.isLt

@[simp] theorem blank_scanned : (blank κ n).scanned = #[] := rfl

@[simp] theorem relax_visited :
    (search.relax matrix potentials row reached).visited = search.visited := rfl

@[simp] theorem relax_scanned :
    (search.relax matrix potentials row reached).scanned = search.scanned := rfl

theorem relax_distance (col : Fin n) :
    (search.relax matrix potentials row reached).distance.get col =
      if search.improves (candidate matrix potentials row reached col) col
      then candidate matrix potentials row reached col else search.distance.get col := by
  refine (Vector.getElem_ofFn col.isLt).trans ?_
  simp only [lengths_get]

theorem relax_predecessor (col : Fin n) :
    (search.relax matrix potentials row reached).predecessor.get col =
      if search.improves (candidate matrix potentials row reached col) col
      then some row else search.predecessor.get col := by
  refine (Vector.getElem_ofFn col.isLt).trans ?_
  simp only [lengths_get]

private theorem foldl_nearer_cases (cols : List (Fin n)) (best : Option (Fin n))
    (found : cols.foldl search.nearer best = some col) :
    best = some col ∨ search.visited.get col = false := by
  induction cols generalizing best with
  | nil => exact .inl found
  | cons head rest ih =>
    rcases ih _ found with kept | unvisited
    · simp only [nearer] at kept
      split_ifs at kept with nearer
      · cases kept
        rw [Bool.and_eq_true, Bool.not_eq_true'] at nearer
        exact .inr nearer.1
      · exact .inl kept
    · exact .inr unvisited

/-- Only columns that are not settled are nearest. -/
theorem visited_of_nearest? (nearest : search.nearest? = some col) :
    search.visited.get col = false :=
  (foldl_nearer_cases _ _ nearest).resolve_left (by simp)

/-! ## One round -/

/-- One round from a row, reached at some distance, settles a column. -/
structure Settles (matrix : SquareMatrix κ n) (potentials : Potentials κ n) (before : Search κ n)
    (row : Fin n) (reached : κ) (col : Fin n) (after : Search κ n) : Prop where
  nearest : (before.relax matrix potentials row reached).nearest? = some col
  isFinite_nearest : isFinite ((before.relax matrix potentials row reached).distance.get col) = true
  after_eq : after = (before.relax matrix potentials row reached).settle col

namespace Settles

variable (round : Settles matrix potentials before row reached col after)

include round

theorem fresh : before.visited.get col = false := by
  simpa only [relax_visited] using visited_of_nearest? round.nearest

theorem scanned : after.scanned = before.scanned.push col := by
  rw [round.after_eq, settle_scanned, relax_scanned]

theorem visited_iff (other : Fin n) :
    after.visited.get other = true ↔ before.visited.get other = true ∨ other = col := by
  rw [round.after_eq, settle_visited, relax_visited]

theorem visited_mono {other : Fin n} (settled : before.visited.get other = true) :
    after.visited.get other = true :=
  (round.visited_iff other).mpr (.inl settled)

theorem finite_distance : isFinite (after.distance.get col) = true := by
  rw [round.after_eq, settle_distance]
  exact round.isFinite_nearest

/-- A round either leads to a column from its row, if that is shorter, or leaves it alone. -/
theorem label (other : Fin n) :
    before.visited.get other = false ∧
        candidate matrix potentials row reached other < before.distance.get other ∧
        after.distance.get other = candidate matrix potentials row reached other ∧
        after.predecessor.get other = some row ∨
      (before.visited.get other = true ∨
          ¬ candidate matrix potentials row reached other < before.distance.get other) ∧
        after.distance.get other = before.distance.get other ∧
        after.predecessor.get other = before.predecessor.get other := by
  rw [round.after_eq, settle_distance, settle_predecessor, relax_distance, relax_predecessor]
  cases shorter : before.improves (candidate matrix potentials row reached other) other with
  | true =>
    simp only [improves, Bool.and_eq_true, Bool.not_eq_true', decide_eq_true_eq] at shorter
    exact .inl ⟨shorter.1, shorter.2, if_pos rfl, if_pos rfl⟩
  | false =>
    simp only [improves, Bool.and_eq_false_iff, Bool.not_eq_false', decide_eq_false_iff_not]
      at shorter
    exact .inr ⟨shorter, if_neg Bool.false_ne_true, if_neg Bool.false_ne_true⟩

theorem distance_of_visited {other : Fin n} (settled : before.visited.get other = true) :
    after.distance.get other = before.distance.get other := by
  rcases round.label other with ⟨unsettled, _⟩ | ⟨_, distance, _⟩
  · rw [settled] at unsettled
    contradiction
  · exact distance

theorem predecessor_of_visited {other : Fin n} (settled : before.visited.get other = true) :
    after.predecessor.get other = before.predecessor.get other := by
  rcases round.label other with ⟨unsettled, _⟩ | ⟨_, _, predecessor⟩
  · rw [settled] at unsettled
    contradiction
  · exact predecessor

end Settles

/-! ## The states of a search -/

/-- The states in which a search from `origin` begins a round: the number of rounds that are left,
what is known, and the row to go on from with its distance. -/
inductive Reachable (matrix : SquareMatrix κ n) (potentials : Potentials κ n)
    (matching : Matching n) (origin : Fin n) : Nat → Search κ n → Fin n → κ → Prop
  | start : Reachable matrix potentials matching origin n (blank κ n) origin (ofNat 0)
  | round {unsettled : Nat} {before after : Search κ n} {row col owner : Fin n} {reached : κ} :
      Reachable matrix potentials matching origin (unsettled + 1) before row reached →
      Settles matrix potentials before row reached col after →
      matching.rowOf.get col = some owner →
      Reachable matrix potentials matching origin unsettled after owner (after.distance.get col)

/-- The end of a search: a round at a free column, or a state in which no round is possible. -/
def Ends (matrix : SquareMatrix κ n) (potentials : Potentials κ n) (matching : Matching n)
    (origin : Fin n) : Search κ n × Option (Fin n) → Prop
  | (final, some sink) => ∃ unsettled before row reached,
      Reachable matrix potentials matching origin (unsettled + 1) before row reached ∧
      Settles matrix potentials before row reached sink final ∧ matching.rowOf.get sink = none
  | (_, none) => ∃ unsettled before row reached,
      Reachable matrix potentials matching origin unsettled before row reached ∧
      (unsettled = 0 ∨ ∀ col after, ¬ Settles matrix potentials before row reached col after)

theorem explore_ends {unsettled : Nat}
    (reachable : Reachable matrix potentials matching origin unsettled search row reached) :
    Ends matrix potentials matching origin
      (explore matrix potentials matching unsettled search row reached) := by
  induction unsettled generalizing search row reached with
  | zero => exact ⟨0, search, row, reached, reachable, .inl rfl⟩
  | succ unsettled ih =>
    rw [explore]
    cases nearest : (search.relax matrix potentials row reached).nearest? with
    | none =>
      refine ⟨_, search, row, reached, reachable, .inr fun col after round => ?_⟩
      rw [round.nearest] at nearest
      contradiction
    | some col =>
      dsimp only
      split_ifs with finite
      · have round : Settles matrix potentials search row reached col _ := ⟨nearest, finite, rfl⟩
        cases owned : matching.rowOf.get col with
        | none => exact ⟨unsettled, search, row, reached, reachable, round, owned⟩
        | some owner => exact ih (reachable.round round owned)
      · refine ⟨_, search, row, reached, reachable, .inr fun other after round => ?_⟩
        obtain rfl := Option.some.inj (nearest.symm.trans round.nearest)
        exact finite round.isFinite_nearest

/-- How every search from a row ends, whatever was left by an earlier one. -/
theorem fromRow_ends (matrix : SquareMatrix κ n) (potentials : Potentials κ n)
    (matching : Matching n) (scratch : Search κ n) (origin : Fin n) :
    Ends matrix potentials matching origin
      (fromRow matrix potentials matching scratch origin) := by
  rw [fromRow, reset_eq]
  exact explore_ends .start

/-- The column that a search ends at is the last one that it has settled. -/
theorem back?_of_fromRow {scratch final : Search κ n} {sink : Fin n}
    (found : fromRow matrix potentials matching scratch origin = (final, some sink)) :
    final.scanned.back? = some sink := by
  have ends := fromRow_ends matrix potentials matching scratch origin
  rw [found] at ends
  obtain ⟨_, _, _, _, _, round, _⟩ := ends
  rw [round.scanned, Array.back?_push]

end LinearAssignment.Search
