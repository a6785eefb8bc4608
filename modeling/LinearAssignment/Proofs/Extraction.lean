import LinearAssignment.Assignment
import LinearAssignment.Proofs.Matching

/-! # The pairs that are retained

Extraction goes through the rows of a cost matrix and takes up the pairs of a square solution that
lie inside the matrix and under the limit. `Extraction.Collects` says what has been taken up after
some of the rows: both sides name the same pairs, and the total is summed in the order of the rows.
-/

namespace LinearAssignment.Extraction

open CostNumber (total)

variable {κ : Type} [CostNumber κ] {n : Nat} {cost : CostMatrix κ}
  {colOf : Vector (Option (Fin n)) n} {limit : κ} {done : List (Fin cost.rows)}
  {row : Fin cost.rows} {col : Fin cost.cols} {extraction : Extraction κ cost.rows cost.cols}

/-- The column of a row in a permutation is real if it lies inside the cost matrix. -/
theorem realColumn?_ofPerm {permutation : Equiv.Perm (Fin n)} :
    realColumn? cost (Matching.ofPerm permutation).colOf row = some col ↔
      ∃ inside : row.val < n, (permutation ⟨row, inside⟩).val = col.val := by
  by_cases inside : row.val < n
  · have entry : (Matching.ofPerm permutation).colOf[row.val]? =
        some (some (permutation ⟨row, inside⟩)) := by
      simp [Matching.ofPerm, inside]
    simp only [realColumn?, entry, Option.join_some, inside, exists_true_left]
    split_ifs with real
    · simp [Fin.ext_iff]
    · simp only [false_iff]
      intro same
      exact real (same ▸ col.isLt)
  · simp [realColumn?, inside]

/-- The column that is retained for a row. -/
def kept? (cost : CostMatrix κ) (colOf : Vector (Option (Fin n)) n) (limit : κ)
    (row : Fin cost.rows) : Option (Fin cost.cols) :=
  (realColumn? cost colOf row).filter fun col => !decide (limit < cost.get row col)

theorem kept?_eq_some_iff : kept? cost colOf limit row = some col ↔
    realColumn? cost colOf row = some col ∧ ¬ limit < cost.get row col := by
  simp [kept?, Option.filter_eq_some_iff]

/-- Whether the pair of a row is dropped because it costs more than the limit. -/
def drops (cost : CostMatrix κ) (colOf : Vector (Option (Fin n)) n) (limit : κ)
    (row : Fin cost.rows) : Bool :=
  (realColumn? cost colOf row).any fun col => decide (limit < cost.get row col)

/-- What has been taken up after some of the rows. -/
structure Collects (cost : CostMatrix κ) (colOf : Vector (Option (Fin n)) n) (limit : κ)
    (done : List (Fin cost.rows)) (extraction : Extraction κ cost.rows cost.cols) : Prop where
  rowToCol : ∀ row, extraction.rowToCol.get row =
    if row ∈ done then kept? cost colOf limit row else none
  colToRow : ∀ row col, extraction.colToRow.get col = some row ↔
    row ∈ done ∧ kept? cost colOf limit row = some col
  totalCost : extraction.totalCost =
    total (done.filterMap fun row => (kept? cost colOf limit row).map (cost.get row))
  excluded : extraction.excluded = done.countP (drops cost colOf limit)

private theorem total_append (costs : List κ) (last : κ) :
    total (costs ++ [last]) = total costs + last := by
  simp [total, List.foldl_append]

/-- Nothing has been taken up at the start. -/
private theorem Collects.start : Collects cost colOf limit []
    ⟨Vector.replicate _ none, Vector.replicate _ none, CostNumber.ofNat 0, 0⟩ where
  rowToCol row := Vector.getElem_replicate row.isLt
  colToRow row col := by
    have untouched : (Vector.replicate cost.cols none).get col = (none : Option (Fin cost.rows)) :=
      Vector.getElem_replicate col.isLt
    simp [untouched]
  totalCost := rfl
  excluded := rfl

/-- A row without a retained column changes nothing but the count of dropped pairs. -/
private theorem Collects.skip (collects : extraction.Collects cost colOf limit done)
    (skipped : kept? cost colOf limit row = none) {excluded : Nat}
    (counted : excluded = extraction.excluded + if drops cost colOf limit row then 1 else 0) :
    Collects cost colOf limit (done ++ [row]) { extraction with excluded := excluded } where
  rowToCol other := by
    rw [collects.rowToCol]
    by_cases same : other = row
    · simp [same, skipped]
    · simp [same]
  colToRow other col := by
    rw [collects.colToRow]
    by_cases same : other = row
    · simp [same, skipped]
    · simp [same]
  totalCost := by simp [skipped, collects.totalCost]
  excluded := by
    simp only [counted, collects.excluded, List.countP_append, List.countP_singleton]

/-- A retained column is entered on both sides. -/
private theorem Collects.take (collects : extraction.Collects cost colOf limit done)
    (kept : kept? cost colOf limit row = some col)
    (distinct : ∀ other, realColumn? cost colOf other = some col → other = row) :
    Collects cost colOf limit (done ++ [row])
      { rowToCol := extraction.rowToCol.set row (some col) row.isLt
        colToRow := extraction.colToRow.set col (some row) col.isLt
        totalCost := extraction.totalCost + cost.get row col
        excluded := extraction.excluded } where
  rowToCol other := by
    refine (get_set ..).trans ?_
    rw [collects.rowToCol]
    by_cases same : other = row
    · simp [same, kept]
    · simp [same]
  colToRow other column := by
    rw [show (extraction.colToRow.set col (some row) col.isLt).get column =
      if column = col then some row else extraction.colToRow.get column from get_set ..]
    split_ifs with same
    · subst same
      rw [Option.some.injEq]
      constructor
      · rintro rfl
        exact ⟨by simp, kept⟩
      · rintro ⟨_, kept'⟩
        exact (distinct other (kept?_eq_some_iff.mp kept').1).symm
    · rw [collects.colToRow]
      have other_ne : kept? cost colOf limit other = some column → other ≠ row := by
        rintro kept' rfl
        exact same (Option.some.inj (kept'.symm.trans kept))
      constructor
      · rintro ⟨member, kept'⟩
        exact ⟨List.mem_append_left _ member, kept'⟩
      · rintro ⟨member, kept'⟩
        exact ⟨by simpa [other_ne kept'] using member, kept'⟩
  totalCost := by simp [kept, collects.totalCost, total_append]
  excluded := by
    obtain ⟨real, below⟩ := kept?_eq_some_iff.mp kept
    simp [collects.excluded, drops, real, below]

/-- The pair of one more row is taken up. -/
theorem Collects.retain (collects : extraction.Collects cost colOf limit done)
    (distinct : ∀ other col, realColumn? cost colOf row = some col →
      realColumn? cost colOf other = some col → other = row) :
    (extraction.retain cost colOf limit row).Collects cost colOf limit (done ++ [row]) := by
  cases real : realColumn? cost colOf row with
  | none =>
    have unchanged : extraction.retain cost colOf limit row = extraction := by
      simp [Extraction.retain, real]
    rw [unchanged]
    exact collects.skip (by simp [kept?, real]) (by simp [drops, real])
  | some col =>
    rw [Extraction.retain, real]
    by_cases above : limit < cost.get row col
    · simp only [above, if_true]
      exact collects.skip (by simp [kept?, real, above]) (by simp [drops, real, above])
    · simp only [above, if_false]
      exact collects.take (kept?_eq_some_iff.mpr ⟨real, above⟩) fun other => distinct other col real

/-- What extraction takes up from a square solution that gives no column to two rows. -/
theorem ofSquare_collects
    (distinct : ∀ row other col, realColumn? cost colOf row = some col →
      realColumn? cost colOf other = some col → other = row) :
    (ofSquare cost colOf limit).Collects cost colOf limit (List.finRange cost.rows) := by
  have all : ∀ rows : List (Fin cost.rows),
      (rows.foldl (Extraction.retain cost colOf limit)
        ⟨Vector.replicate _ none, Vector.replicate _ none, CostNumber.ofNat 0, 0⟩).Collects
          cost colOf limit rows := by
    intro rows
    induction rows using List.reverseRecOn with
    | nil => exact .start
    | append_singleton done row ih =>
      rw [List.foldl_append, List.foldl_cons, List.foldl_nil]
      exact ih.retain (distinct row)
  exact all _

end LinearAssignment.Extraction
