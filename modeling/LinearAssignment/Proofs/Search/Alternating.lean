import LinearAssignment.Proofs.Potentials

/-! # Distances are those of shortest alternating paths

An alternating path passes from a free row to a column, from the row that owns this column to
another column, and so on; its length is the sum of the reduced costs of the pairs that it passes.
Where a search has ended, the distance of every settled column is the least length of all such
paths. The path that the search has found attains it. Any other path either stays among settled
columns, whose rows have all been relaxed, or leaves them for a column that lies no nearer than the
end of the search, and from there on nothing of it is negative.
-/

namespace LinearAssignment

open ExactCost (finite)

variable {n : Nat} {matrix : SquareMatrix ExactCost n} {potentials : Potentials ExactCost n}
  {matching : Matching n} {search : Search ExactCost n} {origin sink row col : Fin n}
  {pairs : List (Fin n × Fin n)} {length : ℚ}

/-! ## Alternating paths -/

/-- A way from the row `origin` to a column, with its pairs listed from the last to the first. Every
pair leads from its row to its column, and the row of every pair but the first owns the column that
the pair before it leads to. -/
inductive AlternatingPath (matching : Matching n) (origin : Fin n) :
    Fin n → List (Fin n × Fin n) → Prop
  | direct (col : Fin n) : AlternatingPath matching origin col [(origin, col)]
  | through {previous row : Fin n} {pairs : List (Fin n × Fin n)} (col : Fin n) :
      AlternatingPath matching origin previous pairs →
      matching.rowOf.get previous = some row →
      AlternatingPath matching origin col ((row, col) :: pairs)

/-- What the pairs of a path cost above their potentials. -/
def pathLength (matrix : SquareMatrix ExactCost n) (potentials : Potentials ExactCost n)
    (pairs : List (Fin n × Fin n)) : ℚ :=
  (pairs.map fun pair => reduced matrix potentials pair.1 pair.2).sum

@[simp] theorem pathLength_nil : pathLength matrix potentials [] = 0 := rfl

@[simp] theorem pathLength_cons (pair : Fin n × Fin n) :
    pathLength matrix potentials (pair :: pairs) =
      reduced matrix potentials pair.1 pair.2 + pathLength matrix potentials pairs := by
  simp [pathLength]

/-- The least length of all alternating paths to a column. It is attained by a path that comes to no
column twice and passes no matched pair, and no path at all is shorter. -/
structure ShortestLength (matrix : SquareMatrix ExactCost n) (potentials : Potentials ExactCost n)
    (matching : Matching n) (origin col : Fin n) (least : ℚ) : Prop where
  attained : ∃ pairs, AlternatingPath matching origin col pairs ∧
    (pairs.map Prod.snd).Nodup ∧ (∀ pair ∈ pairs, matching.colOf.get pair.1 ≠ some pair.2) ∧
    pathLength matrix potentials pairs = least
  le : ∀ pairs, AlternatingPath matching origin col pairs →
    least ≤ pathLength matrix potentials pairs

/-! ## The paths that a search finds -/

namespace Search.PathTo

/-- A path of a search is alternating. -/
theorem alternatingPath (reached : search.PathTo matching origin col pairs)
    (consistent : matching.Consistent) : AlternatingPath matching origin col pairs := by
  induction reached with
  | direct => exact .direct _
  | through _ _ _ owned _ _ ih => exact .through _ ih ((consistent ..).mp owned)

theorem nodup (reached : search.PathTo matching origin col pairs) :
    (pairs.map Prod.snd).Nodup := by
  induction reached with
  | direct => exact List.nodup_singleton _
  | through _ _ _ _ _ fresh ih =>
    rw [List.map_cons, List.nodup_cons, List.mem_map]
    refine ⟨?_, ih⟩
    rintro ⟨pair, member, same⟩
    exact fresh pair member same

/-- A path of a search passes no matched pair. -/
theorem unmatched (reached : search.PathTo matching origin col pairs)
    (free : matching.colOf.get origin = none) {pair : Fin n × Fin n} (member : pair ∈ pairs) :
    matching.colOf.get pair.1 ≠ some pair.2 := by
  induction reached with
  | direct =>
    obtain rfl := List.mem_singleton.mp member
    rw [free]
    exact (Option.some_ne_none _).symm
  | @through row col previous path _ _ _ owned tail fresh ih =>
    rcases List.mem_cons.mp member with rfl | member
    · obtain ⟨via, head⟩ := tail.exists_head
      rw [owned]
      exact fun same => fresh _ head (Option.some.inj same)
    · exact ih member

/-- The distance of a settled column is the length of the path that the search has found. -/
theorem distance_eq {level : ℚ} {pending : Option (Fin n)}
    (reached : search.PathTo matching origin col pairs)
    (measured : search.Measured matrix potentials matching origin level pending)
    (free : matching.colOf.get origin = none) :
    search.distance.get col = finite (pathLength matrix potentials pairs) := by
  induction reached with
  | @direct col _ predecessor =>
    obtain ⟨d, reaches, distance⟩ := measured.edge col origin predecessor
    obtain rfl := reaches.unique free (.inl ⟨rfl, rfl⟩)
    rw [distance]
    simp
  | @through row col previous path _ predecessor _ owned tail _ ih =>
    obtain ⟨via, head⟩ := tail.exists_head
    obtain ⟨d, reaches, distance⟩ := measured.edge col row predecessor
    obtain rfl := reaches.unique free (.inr ⟨previous, (tail.settled head).1, owned, ih⟩)
    rw [distance, pathLength_cons, add_comm]

end Search.PathTo

/-! ## No path is shorter -/

namespace Search.Ended

variable (ended : search.Ended matrix potentials matching origin sink length)

include ended

/-- A path to a column is no shorter than what the search knows, or no shorter than the whole
search. -/
theorem le_pathLength_or
    (feasible : ∀ row col, matching.colOf.get row ≠ none → 0 ≤ reduced matrix potentials row col)
    (path : AlternatingPath matching origin col pairs) :
    (∃ d, search.distance.get col = finite d ∧ d ≤ pathLength matrix potentials pairs) ∨
      length ≤ pathLength matrix potentials pairs := by
  induction path with
  | direct col =>
    obtain ⟨d, distance, relaxed⟩ :=
      ended.measured.relaxed origin 0 (.inl ⟨rfl, rfl⟩) (by simp) col
    refine .inl ⟨d, distance, ?_⟩
    rw [pathLength_cons, pathLength_nil]
    linarith
  | @through previous row pairs col _ owned ih =>
    have paired := (ended.consistent row previous).mpr owned
    have nonneg := feasible row col (by simp [paired])
    rw [pathLength_cons]
    cases visited : search.visited.get previous with
    | true =>
      obtain ⟨d, bound, distance⟩ := ended.measured.settled previous visited
      obtain ⟨e, distance', relaxed⟩ := ended.measured.relaxed row d
        (.inr ⟨previous, visited, paired, distance⟩) (by simp) col
      refine .inl ⟨e, distance', ?_⟩
      rcases ih with ⟨d', known, le⟩ | le
      · obtain rfl := ExactCost.finite.inj (distance.symm.trans known)
        linarith
      · linarith
    | false =>
      refine .inr ?_
      rcases ih with ⟨d, known, le⟩ | le
      · linarith [ended.measured.frontier previous d visited known]
      · linarith

/-- The distance of every settled column is the least length of all alternating paths to it. -/
theorem shortestLength (traced : search.Traced matching origin)
    (feasible : ∀ row col, matching.colOf.get row ≠ none → 0 ≤ reduced matrix potentials row col)
    (visited : search.visited.get col = true) :
    ∃ d, search.distance.get col = finite d ∧
      ShortestLength matrix potentials matching origin col d := by
  obtain ⟨pairs, reached, _⟩ := traced.exists_path col visited
  have distance := reached.distance_eq ended.measured ended.free
  refine ⟨_, distance, ⟨pairs, reached.alternatingPath ended.consistent, reached.nodup,
    fun pair member => reached.unmatched ended.free member, rfl⟩, fun other path => ?_⟩
  rcases ended.le_pathLength_or feasible path with ⟨d, known, le⟩ | le
  · obtain rfl := ExactCost.finite.inj (distance.symm.trans known)
    exact le
  · obtain ⟨d, bound, known⟩ := ended.measured.settled col visited
    obtain rfl := ExactCost.finite.inj (distance.symm.trans known)
    exact bound.trans le

end Search.Ended

end LinearAssignment
