import LinearAssignment.Proofs.Cost
import LinearAssignment.Proofs.Search.Round

/-! # The paths of a search

Every settled column is reached by an alternating path, and its predecessors lead back along that
path to the row where the search began. Nothing here compares distances: a column is reached as soon
as its distance is finite, whatever rounding has made of it. Exchanging the pairs along such a path
keeps a matching consistent.
-/

namespace LinearAssignment.Search

variable {κ : Type} {n : Nat} {search : Search κ n} {matching : Matching n}
  {origin row col sink : Fin n} {path : List (Fin n × Fin n)}

/-- The path by which a search reached a settled column, from its end back to `origin`. The row of
each pair is the one that its column was reached from, and it owns the column of the next pair. -/
inductive PathTo (search : Search κ n) (matching : Matching n) (origin : Fin n) :
    Fin n → List (Fin n × Fin n) → Prop
  | direct {col : Fin n} :
      search.visited.get col = true →
      search.predecessor.get col = some origin →
      PathTo search matching origin col [(origin, col)]
  | through {row col previous : Fin n} {path : List (Fin n × Fin n)} :
      search.visited.get col = true →
      search.predecessor.get col = some row →
      row ≠ origin →
      matching.colOf.get row = some previous →
      PathTo search matching origin previous path →
      (∀ pair ∈ path, pair.2 ≠ col) →
      PathTo search matching origin col ((row, col) :: path)

namespace PathTo

/-- Following the predecessors yields the path, if there is room for all of its pairs. -/
theorem pathBack_eq (reached : PathTo search matching origin col path) {budget : Nat}
    (room : path.length ≤ budget) : search.pathBack matching origin budget col = path := by
  induction reached generalizing budget with
  | direct _ predecessor =>
    obtain ⟨budget, rfl⟩ := Nat.exists_eq_add_of_le' room
    simp [pathBack, predecessor]
  | @through row col previous path _ predecessor notOrigin owned _ _ ih =>
    obtain ⟨budget, rfl⟩ := Nat.exists_eq_add_of_le' room
    have rest : search.pathBack matching origin (budget + path.length) previous = path :=
      ih (Nat.le_add_left ..)
    simp [pathBack, predecessor, notOrigin, owned, rest]

theorem exists_head (reached : PathTo search matching origin col path) :
    ∃ row, (row, col) ∈ path := by
  cases reached with
  | direct => exact ⟨origin, List.mem_cons_self ..⟩
  | @through row => exact ⟨row, List.mem_cons_self ..⟩

theorem exists_origin (reached : PathTo search matching origin col path) :
    ∃ last, (origin, last) ∈ path := by
  induction reached with
  | @direct col => exact ⟨col, List.mem_cons_self ..⟩
  | through _ _ _ _ _ _ ih =>
    obtain ⟨last, member⟩ := ih
    exact ⟨last, List.mem_cons_of_mem _ member⟩

/-- Every column of a path is settled, and its row is the one that it was reached from. -/
theorem settled (reached : PathTo search matching origin col path) {pair : Fin n × Fin n}
    (member : pair ∈ path) :
    search.visited.get pair.2 = true ∧ search.predecessor.get pair.2 = some pair.1 := by
  induction reached with
  | direct visited predecessor =>
    obtain rfl := List.mem_singleton.mp member
    exact ⟨visited, predecessor⟩
  | through visited predecessor _ _ _ _ ih =>
    rcases List.mem_cons.mp member with rfl | member
    · exact ⟨visited, predecessor⟩
    · exact ih member

/-- A row of a path is the origin, or it owns the column of a later pair. -/
theorem origin_or_owner (reached : PathTo search matching origin col path) {pair : Fin n × Fin n}
    (member : pair ∈ path) :
    pair.1 = origin ∨
      ∃ next ∈ path, matching.colOf.get pair.1 = some next.2 ∧ next.2 ≠ col := by
  induction reached with
  | direct =>
    obtain rfl := List.mem_singleton.mp member
    exact .inl rfl
  | through _ _ _ owned tail fresh ih =>
    rcases List.mem_cons.mp member with rfl | member
    · obtain ⟨row, head⟩ := tail.exists_head
      exact .inr ⟨_, List.mem_cons_of_mem _ head, owned, fresh _ head⟩
    · rcases ih member with isOrigin | ⟨next, later, owned, _⟩
      · exact .inl isOrigin
      · exact .inr ⟨next, List.mem_cons_of_mem _ later, owned, fresh next later⟩

/-- Paths stay what they are while further columns are settled. -/
theorem mono {later : Search κ n} (reached : PathTo search matching origin col path)
    (frozen : ∀ other, search.visited.get other = true →
      later.visited.get other = true ∧
        later.predecessor.get other = search.predecessor.get other) :
    PathTo later matching origin col path := by
  induction reached with
  | direct visited predecessor =>
    obtain ⟨visited', same⟩ := frozen _ visited
    exact .direct visited' (same.trans predecessor)
  | through visited predecessor notOrigin owned _ fresh ih =>
    obtain ⟨visited', same⟩ := frozen _ visited
    exact .through visited' (same.trans predecessor) notOrigin owned ih fresh

/-- The row that owns the end of a path does not lie on it, except for the origin. -/
theorem row_ne (reached : PathTo search matching origin col path) (notOrigin : row ≠ origin)
    (owned : matching.colOf.get row = some col) {pair : Fin n × Fin n} (member : pair ∈ path) :
    pair.1 ≠ row := by
  rintro rfl
  rcases reached.origin_or_owner member with isOrigin | ⟨next, _, owned', notCol⟩
  · exact notOrigin isOrigin
  · exact notCol (Option.some.inj (owned'.symm.trans owned))

/-- Exchanging the pairs along a path closes the gap at its end. In `current` a part of the path has
been exchanged already, and no row of the rest is concerned. -/
theorem assignAll_consistent (reached : PathTo search matching origin col path)
    (free : matching.colOf.get origin = none) {current : Matching n}
    (gap : current.ConsistentBut col)
    (same : ∀ pair ∈ path, current.colOf.get pair.1 = matching.colOf.get pair.1) :
    (current.assignAll path).Consistent := by
  induction reached generalizing current with
  | direct =>
    have stillFree := (same _ (List.mem_cons_self ..)).trans free
    exact gap.assign_free stillFree
  | @through row col previous path _ _ notOrigin owned tail fresh ih =>
    have stillOwned := (same _ (List.mem_cons_self ..)).trans owned
    refine ih (gap.assign_matched stillOwned) fun pair member => ?_
    rw [Matching.colOf_assign, if_neg (tail.row_ne notOrigin owned member)]
    exact same pair (List.mem_cons_of_mem _ member)

end PathTo

/-! ## What is known in every state -/

/-- Whether a search has come to a row: the one it began at, or one that owns a settled column. -/
def Reaches (search : Search κ n) (matching : Matching n) (origin row : Fin n) : Prop :=
  row = origin ∨
    ∃ col, search.visited.get col = true ∧ matching.colOf.get row = some col

variable [CostNumber κ] {matrix : SquareMatrix κ n} {potentials : Potentials κ n}
  {before after final scratch : Search κ n} {reached : κ}

open CostNumber (infinity isFinite)

/-- A search records the columns that it settles, and a path to each of them. -/
structure Traced (search : Search κ n) (matching : Matching n) (origin : Fin n) : Prop where
  visited_iff : ∀ col, search.visited.get col = true ↔ col ∈ search.scanned.toList
  nodup : search.scanned.toList.Nodup
  exists_path : ∀ col, search.visited.get col = true →
    ∃ path, search.PathTo matching origin col path ∧ path.length ≤ search.scanned.size
  reaches : ∀ col row, search.predecessor.get col = some row → search.Reaches matching origin row
  unknown : ∀ col, search.predecessor.get col = none → search.distance.get col = infinity

theorem Traced.blank : (blank κ n).Traced matching origin where
  visited_iff := by simp
  nodup := by simp
  exists_path := by simp
  reaches := by simp
  unknown := by simp

theorem Settles.reaches_mono (round : Settles matrix potentials before row reached col after)
    {other : Fin n} (reaches : before.Reaches matching origin other) :
    after.Reaches matching origin other := by
  rcases reaches with isOrigin | ⟨owned, visited, paired⟩
  · exact .inl isOrigin
  · exact .inr ⟨owned, round.visited_mono visited, paired⟩

/-- A column at a finite distance has been reached from some row. -/
private theorem exists_predecessor [LawfulCost κ]
    (unknown : ∀ col, search.predecessor.get col = none → search.distance.get col = infinity)
    (finite : isFinite (search.distance.get col) = true) :
    ∃ row, search.predecessor.get col = some row := by
  refine Option.ne_none_iff_exists'.mp fun none => ?_
  rw [unknown col none, LawfulCost.isFinite_infinity] at finite
  contradiction

/-- Columns are reached from rows that the search had come to before the round. -/
private theorem Settles.reaches_predecessor
    (round : Settles matrix potentials before row reached col after)
    (traced : before.Traced matching origin) (reaches : before.Reaches matching origin row)
    {other via : Fin n} (predecessor : after.predecessor.get other = some via) :
    before.Reaches matching origin via := by
  rcases round.label other with ⟨_, _, _, label⟩ | ⟨_, _, label⟩
  · obtain rfl := Option.some.inj (label.symm.trans predecessor)
    exact reaches
  · exact traced.reaches other via (label.symm.trans predecessor)

private theorem Settles.unknown_after
    (round : Settles matrix potentials before row reached col after)
    (traced : before.Traced matching origin) (other : Fin n)
    (none : after.predecessor.get other = none) : after.distance.get other = infinity := by
  rcases round.label other with ⟨_, _, _, label⟩ | ⟨_, distance, label⟩
  · rw [label] at none
    contradiction
  · exact distance.trans (traced.unknown other (label.symm.trans none))

/-- A round finds a path to the column that it settles, and keeps the others. -/
private theorem Settles.exists_path_after [LawfulCost κ]
    (round : Settles matrix potentials before row reached col after)
    (traced : before.Traced matching origin) (reaches : before.Reaches matching origin row)
    {other : Fin n} (visited : after.visited.get other = true) :
    ∃ path, after.PathTo matching origin other path ∧ path.length ≤ after.scanned.size := by
  have frozen : ∀ other, before.visited.get other = true → after.visited.get other = true ∧
      after.predecessor.get other = before.predecessor.get other := fun other visited =>
    ⟨round.visited_mono visited, round.predecessor_of_visited visited⟩
  have size : after.scanned.size = before.scanned.size + 1 := by
    rw [round.scanned, Array.size_push]
  rcases (round.visited_iff other).mp visited with old | rfl
  · obtain ⟨path, reached, length⟩ := traced.exists_path other old
    exact ⟨path, reached.mono frozen, by omega⟩
  · obtain ⟨via, predecessor⟩ :=
      exists_predecessor (round.unknown_after traced) round.finite_distance
    rcases Decidable.em (via = origin) with rfl | notOrigin
    · exact ⟨_, .direct visited predecessor, by simp [size]⟩
    · obtain ⟨previous, settled, owned⟩ :=
        (round.reaches_predecessor traced reaches predecessor).resolve_left notOrigin
      obtain ⟨path, reached, length⟩ := traced.exists_path previous settled
      refine ⟨_, .through visited predecessor notOrigin owned (reached.mono frozen) ?_, ?_⟩
      · rintro pair member rfl
        have fresh := round.fresh
        rw [(reached.settled member).1] at fresh
        contradiction
      · simp only [List.length_cons]
        omega

/-- A round keeps the records. -/
theorem Settles.traced [LawfulCost κ]
    (round : Settles matrix potentials before row reached col after)
    (traced : before.Traced matching origin) (reaches : before.Reaches matching origin row) :
    after.Traced matching origin where
  visited_iff other := by
    rw [round.visited_iff, round.scanned, traced.visited_iff]
    simp
  nodup := by
    rw [round.scanned, Array.toList_push, List.nodup_append]
    refine ⟨traced.nodup, List.nodup_singleton _, ?_⟩
    intro other member new isNew
    obtain rfl := List.mem_singleton.mp isNew
    rintro rfl
    have fresh := round.fresh
    rw [(traced.visited_iff other).mpr member] at fresh
    contradiction
  exists_path _ visited := round.exists_path_after traced reaches visited
  reaches _ _ predecessor :=
    round.reaches_mono (round.reaches_predecessor traced reaches predecessor)
  unknown := round.unknown_after traced

/-- In every state between two rounds all settled columns are matched, and the rounds that are left
and the settled columns count all columns. -/
theorem Reachable.traced [LawfulCost κ] (consistent : matching.Consistent) {unsettled : Nat}
    (reachable : Reachable matrix potentials matching origin unsettled search row reached) :
    search.Traced matching origin ∧ search.Reaches matching origin row ∧
      (∀ col, search.visited.get col = true → matching.rowOf.get col ≠ none) ∧
      unsettled + search.scanned.size = n := by
  induction reachable with
  | start => exact ⟨.blank, .inl rfl, by simp, by simp⟩
  | @round unsettled before after row col owner reached _ settles owned ih =>
    obtain ⟨traced, reaches, matched, count⟩ := ih
    have paired := (consistent owner col).mpr owned
    refine ⟨settles.traced traced reaches, ?_, fun other visited => ?_, ?_⟩
    · exact .inr ⟨col, (settles.visited_iff col).mpr (.inr rfl), paired⟩
    · rcases (settles.visited_iff other).mp visited with old | rfl
      · exact matched other old
      · simp [owned]
    · rw [settles.scanned, Array.size_push]
      omega

/-- A search from a free row has a round left in every state, and a free column that is not settled
yet. -/
theorem Reachable.exists_unsettled [LawfulCost κ] (consistent : matching.Consistent)
    (free : matching.colOf.get origin = none) {unsettled : Nat}
    (reachable : Reachable matrix potentials matching origin unsettled search row reached) :
    unsettled ≠ 0 ∧
      ∃ col, search.visited.get col = false ∧ matching.rowOf.get col = none := by
  obtain ⟨traced, _, matched, count⟩ := reachable.traced consistent
  obtain ⟨spare, freeCol⟩ := consistent.exists_free_col free
  have unvisited : search.visited.get spare = false := by
    by_contra visited
    exact matched spare (by simpa using visited) freeCol
  refine ⟨?_, spare, unvisited, freeCol⟩
  rintro rfl
  have full : search.scanned.toList.toFinset = Finset.univ := by
    apply Finset.eq_univ_of_card
    rw [List.toFinset_card_of_nodup traced.nodup, Array.length_toList, Fintype.card_fin]
    omega
  have scanned := (traced.visited_iff spare).mpr (List.mem_toFinset.mp (full ▸ Finset.mem_univ _))
  rw [unvisited] at scanned
  contradiction

/-- A search that ends at a column has settled it, last of all and as the only free one. -/
theorem fromRow_found [LawfulCost κ] (consistent : matching.Consistent)
    (found : fromRow matrix potentials matching scratch origin = (final, some sink)) :
    final.Traced matching origin ∧ final.visited.get sink = true ∧
      matching.rowOf.get sink = none ∧
      ∀ col, final.visited.get col = true → col = sink ∨ matching.rowOf.get col ≠ none := by
  have ends := fromRow_ends matrix potentials matching scratch origin
  rw [found] at ends
  obtain ⟨_, before, row, reached, reachable, round, free⟩ := ends
  obtain ⟨traced, reaches, matched, _⟩ := reachable.traced consistent
  refine ⟨round.traced traced reaches, (round.visited_iff sink).mpr (.inr rfl), free, ?_⟩
  intro col visited
  rcases (round.visited_iff col).mp visited with old | same
  · exact .inr (matched col old)
  · exact .inl same

/-- The path that a search hands over is one of its own. -/
theorem Traced.pathTo_path (traced : search.Traced matching origin)
    (visited : search.visited.get col = true) :
    search.PathTo matching origin col (search.path matching origin col) := by
  obtain ⟨path, reached, length⟩ := traced.exists_path col visited
  rw [Search.path, reached.pathBack_eq length]
  exact reached

end LinearAssignment.Search
