import LinearAssignment.Matching
import Mathlib.Data.Fintype.EquivFin

/-! # Matchings whose two sides agree

A matching is consistent if its two sides record the same pairs. Exchanging the pairs of an
alternating path breaks this for a moment: after each exchange one column still names a row that
has moved on. `ConsistentBut` describes these states; the last exchange, which matches a free row,
closes the gap. A consistent matching without a free row is a permutation.
-/

namespace LinearAssignment

/-- One entry of a vector is written and all others are kept. -/
theorem get_set {α : Type} {n : Nat} (entries : Vector α n) (index other : Fin n) (value : α) :
    (entries.set index value index.isLt).get other =
      if other = index then value else entries.get other := by
  refine (Vector.getElem_set index.isLt other.isLt).trans ?_
  simp only [Fin.ext_iff, eq_comm]
  rfl

namespace Matching

variable {n : Nat} {matching : Matching n}

/-! ## What is read after an assignment -/

@[simp] theorem colOf_empty (row : Fin n) : (empty : Matching n).colOf.get row = none :=
  Vector.getElem_replicate row.isLt

@[simp] theorem rowOf_empty (col : Fin n) : (empty : Matching n).rowOf.get col = none :=
  Vector.getElem_replicate col.isLt

@[simp] theorem isFreeRow_iff {row : Fin n} :
    matching.isFreeRow row = true ↔ matching.colOf.get row = none :=
  Option.isNone_iff_eq_none

theorem colOf_assign (matching : Matching n) (row col other : Fin n) :
    (matching.assign row col).colOf.get other =
      if other = row then some col else matching.colOf.get other :=
  get_set ..

theorem rowOf_assign (matching : Matching n) (row col other : Fin n) :
    (matching.assign row col).rowOf.get other =
      if other = col then some row else matching.rowOf.get other :=
  get_set ..

@[simp] theorem assignAll_nil (matching : Matching n) : matching.assignAll [] = matching := rfl

@[simp] theorem assignAll_cons (matching : Matching n) (pair : Fin n × Fin n)
    (rest : List (Fin n × Fin n)) :
    matching.assignAll (pair :: rest) = (matching.assign pair.1 pair.2).assignAll rest := rfl

/-- A pair of the result is one of the new ones or was there before. -/
theorem mem_or_colOf_of_assignAll {pairs : List (Fin n × Fin n)} {row col : Fin n}
    (paired : (matching.assignAll pairs).colOf.get row = some col) :
    (row, col) ∈ pairs ∨ matching.colOf.get row = some col := by
  induction pairs generalizing matching with
  | nil => exact .inr paired
  | cons pair rest ih =>
    rcases ih paired with member | before
    · exact .inl (List.mem_cons_of_mem _ member)
    · rw [colOf_assign] at before
      split_ifs at before with same
      · cases before
        subst same
        exact .inl (List.mem_cons_self ..)
      · exact .inr before

/-- The rows of the new pairs are matched, and all that were. -/
theorem colOf_assignAll_eq_none_iff {pairs : List (Fin n × Fin n)} {row : Fin n} :
    (matching.assignAll pairs).colOf.get row = none ↔
      matching.colOf.get row = none ∧ ∀ pair ∈ pairs, pair.1 ≠ row := by
  induction pairs generalizing matching with
  | nil => simp
  | cons pair rest ih =>
    rw [assignAll_cons, ih, colOf_assign]
    by_cases same : row = pair.1
    · simp [same]
    · simp [same, Ne.symm same]

/-- The columns of the new pairs are matched, and all that were. -/
theorem rowOf_assignAll_eq_none_iff {pairs : List (Fin n × Fin n)} {col : Fin n} :
    (matching.assignAll pairs).rowOf.get col = none ↔
      matching.rowOf.get col = none ∧ ∀ pair ∈ pairs, pair.2 ≠ col := by
  induction pairs generalizing matching with
  | nil => simp
  | cons pair rest ih =>
    rw [assignAll_cons, ih, rowOf_assign]
    by_cases same : col = pair.2
    · simp [same]
    · simp [same, Ne.symm same]

/-! ## Consistency -/

/-- Both sides record the same pairs. -/
def Consistent (matching : Matching n) : Prop :=
  ∀ row col, matching.colOf.get row = some col ↔ matching.rowOf.get col = some row

/-- Both sides record the same pairs, except that what one column names counts for nothing. -/
def ConsistentBut (matching : Matching n) (hole : Fin n) : Prop :=
  ∀ row col, matching.colOf.get row = some col ↔
    matching.rowOf.get col = some row ∧ col ≠ hole

theorem consistent_empty : (empty : Matching n).Consistent := by
  intro row col
  simp

/-- No column has two rows. -/
theorem Consistent.row_unique (consistent : matching.Consistent) {row other col : Fin n}
    (first : matching.colOf.get row = some col) (second : matching.colOf.get other = some col) :
    row = other := by
  rw [consistent] at first second
  exact Option.some.inj (first.symm.trans second)

theorem Consistent.consistentBut (consistent : matching.Consistent) {col : Fin n}
    (free : matching.rowOf.get col = none) : matching.ConsistentBut col := by
  intro row other
  rw [consistent]
  refine ⟨fun owned => ⟨owned, ?_⟩, And.left⟩
  rintro rfl
  rw [free] at owned
  contradiction

/-- A row that moves to the open column leaves its own column open. -/
theorem ConsistentBut.assign_matched {row hole previous : Fin n}
    (consistent : matching.ConsistentBut hole) (owned : matching.colOf.get row = some previous) :
    (matching.assign row hole).ConsistentBut previous := by
  have owner := (consistent row previous).mp owned
  intro other col
  have pairs := consistent other col
  rw [colOf_assign, rowOf_assign]
  split_ifs with sameRow sameCol sameCol
  · grind
  · grind
  · grind
  · grind

/-- A free row that moves to the open column closes the gap. -/
theorem ConsistentBut.assign_free {row hole : Fin n} (consistent : matching.ConsistentBut hole)
    (free : matching.colOf.get row = none) : (matching.assign row hole).Consistent := by
  intro other col
  have pairs := consistent other col
  have none := consistent row col
  rw [colOf_assign, rowOf_assign]
  split_ifs with sameRow sameCol sameCol
  · grind
  · grind
  · grind
  · grind

/-- A free row leaves a free column. -/
theorem Consistent.exists_free_col (consistent : matching.Consistent) {row : Fin n}
    (free : matching.colOf.get row = none) : ∃ col, matching.rowOf.get col = none := by
  by_contra occupied
  simp only [not_exists] at occupied
  choose owner owned using fun col => Option.ne_none_iff_exists'.mp (occupied col)
  have injective : Function.Injective owner := by
    intro col other same
    have paired := (consistent (owner col) col).mpr (owned col)
    have paired' := (consistent (owner other) other).mpr (owned other)
    exact Option.some.inj (paired.symm.trans (same ▸ paired'))
  obtain ⟨col, rfl⟩ := Finite.surjective_of_injective injective row
  rw [(consistent (owner col) col).mpr (owned col)] at free
  contradiction

/-! ## Permutations -/

/-- The matching of every row with its image. -/
def ofPerm (permutation : Equiv.Perm (Fin n)) : Matching n where
  colOf := Vector.ofFn fun row => some (permutation row)
  rowOf := Vector.ofFn fun col => some (permutation.symm col)

@[simp] theorem colOf_ofPerm (permutation : Equiv.Perm (Fin n)) (row : Fin n) :
    (ofPerm permutation).colOf.get row = some (permutation row) :=
  Vector.getElem_ofFn row.isLt

@[simp] theorem rowOf_ofPerm (permutation : Equiv.Perm (Fin n)) (col : Fin n) :
    (ofPerm permutation).rowOf.get col = some (permutation.symm col) :=
  Vector.getElem_ofFn col.isLt

private theorem ext_get {first second : Matching n}
    (colOf : ∀ row, first.colOf.get row = second.colOf.get row)
    (rowOf : ∀ col, first.rowOf.get col = second.rowOf.get col) : first = second := by
  rcases first with ⟨cols, rows⟩
  rcases second with ⟨cols', rows'⟩
  congr 1
  · exact Vector.ext fun index bound => colOf ⟨index, bound⟩
  · exact Vector.ext fun index bound => rowOf ⟨index, bound⟩

/-- A consistent matching of all rows is a permutation. -/
theorem Consistent.exists_eq_ofPerm (consistent : matching.Consistent)
    (complete : ∀ row, matching.colOf.get row ≠ none) :
    ∃ permutation : Equiv.Perm (Fin n), matching = ofPerm permutation := by
  choose image paired using fun row => Option.ne_none_iff_exists'.mp (complete row)
  have injective : Function.Injective image := fun row other same =>
    consistent.row_unique (paired row) (same ▸ paired other)
  have bijective : Function.Bijective image := Finite.injective_iff_bijective.mp injective
  refine ⟨Equiv.ofBijective image bijective, ext_get (fun row => ?_) (fun col => ?_)⟩
  · rw [colOf_ofPerm, paired, Equiv.ofBijective_apply]
  · rw [rowOf_ofPerm, ← consistent, paired]
    exact congrArg some ((Equiv.ofBijective image bijective).apply_symm_apply col)

end Matching

end LinearAssignment
