import Mathlib.Algebra.BigOperators.Fin
import Mathlib.Algebra.Order.BigOperators.Group.Finset
import Mathlib.Algebra.Order.Ring.Rat
import Mathlib.Data.PEquiv
import Mathlib.Logic.Equiv.Fintype

/-! # Pairings of rows with columns

A pairing matches some rows of a rectangle with some of its columns. The pairs of a permutation that
lie inside the rectangle are one, the real part of the permutation. A square has room for a pairing
if the rows and columns that it leaves open fit beside and below the rectangle; then, and only then,
the pairing is the real part of a permutation of the square.
-/

namespace LinearAssignment

/-- A matching of some of the rows with some of the columns. -/
abbrev Pairing (rows cols : Nat) := Fin rows ≃. Fin cols

namespace Pairing

variable {rows cols n : Nat} {row : Fin rows} {col : Fin cols}

/-- The pairs of a row and its column. -/
def pairs (pairing : Pairing rows cols) : Finset (Fin rows × Fin cols) :=
  Finset.univ.filter fun pair => pairing pair.1 = some pair.2

/-- How many pairs there are. -/
def size (pairing : Pairing rows cols) : Nat := pairing.pairs.card

/-- The sum of the prices of all pairs. -/
def total (pairing : Pairing rows cols) (price : Fin rows → Fin cols → ℚ) : ℚ :=
  ∑ pair ∈ pairing.pairs, price pair.1 pair.2

/-- The pairs that are kept. -/
def filter (pairing : Pairing rows cols) (keep : Fin rows → Fin cols → Bool) :
    Pairing rows cols where
  toFun row := (pairing row).filter (keep row)
  invFun col := (pairing.symm col).filter (keep · col)
  inv row col := by simp [Option.filter_eq_some_iff, pairing.eq_some_iff]

@[simp] theorem mem_pairs {pairing : Pairing rows cols} :
    (row, col) ∈ pairing.pairs ↔ pairing row = some col := by
  simp [pairs]

theorem filter_apply (pairing : Pairing rows cols) (keep : Fin rows → Fin cols → Bool)
    (row : Fin rows) : pairing.filter keep row = (pairing row).filter (keep row) := rfl

/-- The pairs that are kept are some of the pairs. -/
theorem pairs_filter (pairing : Pairing rows cols) (keep : Fin rows → Fin cols → Bool) :
    (pairing.filter keep).pairs = pairing.pairs.filter fun pair => keep pair.1 pair.2 := by
  ext ⟨row, col⟩
  simp [filter_apply, Option.filter_eq_some_iff]

theorem filter_eq_self {pairing : Pairing rows cols} {keep : Fin rows → Fin cols → Bool}
    (all : ∀ row col, pairing row = some col → keep row col = true) :
    pairing.filter keep = pairing := by
  refine PEquiv.ext fun row => Option.ext fun col => ?_
  rw [filter_apply, Option.filter_eq_some_iff]
  exact and_iff_left_of_imp (all row col)

theorem size_filter_eq_zero {pairing : Pairing rows cols} {keep : Fin rows → Fin cols → Bool}
    (dropped : ∀ row col, pairing row = some col → keep row col = false) :
    (pairing.filter keep).size = 0 := by
  rw [size, pairs_filter, Finset.card_eq_zero, Finset.filter_eq_empty_iff]
  rintro ⟨row, col⟩ member
  simp [dropped row col (mem_pairs.mp member)]

/-! ## Sums over pairs -/

/-- A sum over the pairs is a sum over the rows. -/
theorem sum_pairs {M : Type} [AddCommMonoid M] (pairing : Pairing rows cols)
    (term : Fin rows × Fin cols → M) :
    ∑ pair ∈ pairing.pairs, term pair =
      ∑ row, (pairing row).elim 0 fun col => term (row, col) := by
  rw [pairs, Finset.sum_filter, Fintype.sum_prod_type]
  refine Finset.sum_congr rfl fun row _ => ?_
  cases paired : pairing row with
  | none => simp [paired]
  | some col => simp [paired]

/-- Dropping pairs whose prices are positive lowers the total. -/
theorem total_filter_lt {pairing : Pairing rows cols} {keep : Fin rows → Fin cols → Bool}
    {price : Fin rows → Fin cols → ℚ} (positive : ∀ row col, keep row col = false → 0 < price row col)
    (paired : pairing row = some col) (dropped : keep row col = false) :
    (pairing.filter keep).total price < pairing.total price := by
  have positive' : ∀ pair ∈ pairing.pairs, pair ∉ (pairing.filter keep).pairs →
      0 < price pair.1 pair.2 := by
    intro pair member absent
    rw [pairs_filter, Finset.mem_filter, and_iff_right member] at absent
    exact positive _ _ (by simpa using absent)
  have absent : (row, col) ∉ (pairing.filter keep).pairs := by
    simp [pairs_filter, dropped]
  refine Finset.sum_lt_sum_of_subset ?_ (mem_pairs.mpr paired) absent
    (positive row col dropped) fun pair member absent => (positive' pair member absent).le
  rw [pairs_filter]
  exact Finset.filter_subset ..

/-- A pairing that no dropping improves has none of the pairs that would be dropped. -/
theorem keep_of_total_le {pairing : Pairing rows cols} {keep : Fin rows → Fin cols → Bool}
    {price : Fin rows → Fin cols → ℚ} (positive : ∀ row col, keep row col = false → 0 < price row col)
    (cheapest : pairing.total price ≤ (pairing.filter keep).total price)
    (paired : pairing row = some col) : keep row col = true := by
  by_contra dropped
  have lower := total_filter_lt positive paired (Bool.eq_false_iff.mpr dropped)
  exact absurd cheapest (not_le.mpr lower)

/-- There are as many pairs as rows that have one. -/
theorem size_eq_countP (pairing : Pairing rows cols) :
    pairing.size = (List.finRange rows).countP fun row => (pairing row).isSome := by
  rw [size, Finset.card_eq_sum_ones, sum_pairs, Fin.sum_univ_def]
  induction List.finRange rows with
  | nil => rfl
  | cons row rest ih =>
    rw [List.map_cons, List.sum_cons, ih, List.countP_cons, add_comm]
    cases pairing row with
    | none => rfl
    | some col => rfl

/-- A uniform discount is given once for every pair. -/
theorem total_sub (pairing : Pairing rows cols) (price : Fin rows → Fin cols → ℚ) (gate : ℚ) :
    pairing.total (fun row col => price row col - gate) =
      pairing.total price - pairing.size * gate := by
  simp only [total, size, Finset.sum_sub_distrib, Finset.sum_const, nsmul_eq_mul]

/-- A row is open or has its pair. -/
theorem card_open_add_size (pairing : Pairing rows cols) :
    Fintype.card {row // pairing row = none} + pairing.size = rows := by
  have matched : pairing.size = (Finset.univ.filter fun row => ¬ pairing row = none).card := by
    rw [size, Finset.card_eq_sum_ones, sum_pairs, Finset.card_filter]
    refine Finset.sum_congr rfl fun row _ => ?_
    cases pairing row with
    | none => simp
    | some col => simp
  rw [Fintype.card_subtype, matched, Finset.card_filter_add_card_filter_not, Finset.card_univ,
    Fintype.card_fin]

theorem size_le_rows (pairing : Pairing rows cols) : pairing.size ≤ rows := by
  have count := pairing.card_open_add_size
  omega

/-- The other side has as many pairs. -/
theorem size_symm (pairing : Pairing rows cols) : size pairing.symm = pairing.size := by
  have swapped : pairs pairing.symm = pairing.pairs.map (Equiv.prodComm ..).toEmbedding := by
    ext ⟨col, row⟩
    simp [pairing.eq_some_iff]
  rw [size, swapped, Finset.card_map, size]

theorem size_le_cols (pairing : Pairing rows cols) : pairing.size ≤ cols := by
  rw [← pairing.size_symm]
  exact size_le_rows pairing.symm

/-! ## Real parts -/

private def bounded (bound : Nat) (index : Fin n) : Option (Fin bound) :=
  if inside : index.val < bound then some ⟨index.val, inside⟩ else none

private theorem bounded_eq_some_iff {bound : Nat} {index : Fin n} {image : Fin bound} :
    bounded bound index = some image ↔ index.val = image.val := by
  rw [bounded]
  split_ifs with inside
  · simp [Fin.ext_iff]
  · simp only [false_iff]
    have := image.isLt
    omega

/-- The pairs of a permutation that lie inside the rectangle. -/
def realPart (permutation : Equiv.Perm (Fin n)) : Pairing rows cols where
  toFun row :=
    if inside : row.val < n then bounded cols (permutation ⟨row.val, inside⟩) else none
  invFun col :=
    if inside : col.val < n then bounded rows (permutation.symm ⟨col.val, inside⟩) else none
  inv row col := by
    split_ifs with inCols inRows inRows
    · rw [bounded_eq_some_iff, bounded_eq_some_iff]
      constructor
      · intro image
        rw [← permutation.symm_apply_eq.mp (Fin.ext image)]
      · intro image
        rw [permutation.symm_apply_eq.mpr (Fin.ext image.symm)]
    · simp only [bounded_eq_some_iff, iff_false]
      have := (permutation.symm ⟨col.val, inCols⟩).isLt
      omega
    · simp only [bounded_eq_some_iff, false_iff]
      have := (permutation ⟨row.val, inRows⟩).isLt
      omega
    · simp

variable {permutation : Equiv.Perm (Fin n)} {pairing : Pairing rows cols}

theorem realPart_eq_some_iff :
    (realPart permutation : Pairing rows cols) row = some col ↔
      ∃ inside : row.val < n, (permutation ⟨row.val, inside⟩).val = col.val := by
  change (if inside : row.val < n then bounded cols (permutation ⟨row.val, inside⟩) else none) =
    some col ↔ _
  split_ifs with inside
  · simp only [bounded_eq_some_iff, inside, exists_true_left]
  · simp [inside]

/-- An open row of a real part has its column outside. -/
theorem le_of_realPart_eq_none (tall : rows ≤ n)
    (isOpen : (realPart permutation : Pairing rows cols) row = none) :
    cols ≤ (permutation (row.castLE tall)).val := by
  by_contra real
  have inside : (permutation (row.castLE tall)).val < cols := by omega
  have paired : (realPart permutation : Pairing rows cols) row = some ⟨_, inside⟩ :=
    realPart_eq_some_iff.mpr ⟨(row.castLE tall).isLt, rfl⟩
  rw [isOpen] at paired
  contradiction

/-- A real part leaves no more rows open than there are columns beside the rectangle. -/
theorem le_size_realPart (tall : rows ≤ n) (wide : cols ≤ n) (permutation : Equiv.Perm (Fin n)) :
    rows + cols ≤ n + (realPart permutation : Pairing rows cols).size := by
  let beside : {row // (realPart permutation : Pairing rows cols) row = none} → Fin (n - cols) :=
    fun row => ⟨(permutation (row.val.castLE tall)).val - cols, by
      have outside := le_of_realPart_eq_none tall row.property
      have := (permutation (row.val.castLE tall)).isLt
      omega⟩
  have injective : Function.Injective beside := by
    intro row other same
    have outside := le_of_realPart_eq_none tall row.property
    have outside' := le_of_realPart_eq_none tall other.property
    have same' := Fin.val_eq_of_eq same
    simp only [beside] at same'
    have image : permutation (row.val.castLE tall) = permutation (other.val.castLE tall) := by
      apply Fin.ext
      omega
    exact Subtype.ext (Fin.castLE_injective tall (permutation.injective image))
  have few := Fintype.card_le_of_injective beside injective
  have count := (realPart permutation : Pairing rows cols).card_open_add_size
  rw [Fintype.card_fin] at few
  omega

private theorem exists_spare (wide : cols ≤ n) (enough : rows + cols ≤ n + pairing.size) :
    ∃ spare : {row // pairing row = none} → Fin n,
      Function.Injective spare ∧ ∀ row, cols ≤ (spare row).val := by
  have count := pairing.card_open_add_size
  have few : Fintype.card {row // pairing row = none} ≤ Fintype.card (Fin (n - cols)) := by
    rw [Fintype.card_fin]
    omega
  obtain ⟨places⟩ := Function.Embedding.nonempty_of_card_le few
  refine ⟨fun row => ⟨cols + (places row).val, by omega⟩, fun row other same => ?_, fun row => ?_⟩
  · apply places.injective
    apply Fin.ext
    have same' := Fin.val_eq_of_eq same
    simp only at same'
    omega
  · exact Nat.le_add_right ..

/-- Partners inside the rectangle differ from each other and from columns beside it. -/
private theorem injective_of_partners {image : Fin rows → Fin n}
    (matched : ∀ row col, pairing row = some col → (image row).val = col.val)
    (beside : ∀ row, pairing row = none → cols ≤ (image row).val)
    (distinct : ∀ row other, pairing row = none → pairing other = none →
      image row = image other → row = other) : Function.Injective image := by
  intro row other same
  have sameVal : (image row).val = (image other).val := congrArg Fin.val same
  cases paired : pairing row with
  | none =>
    have bound := beside row paired
    cases paired' : pairing other with
    | none => exact distinct row other paired paired' same
    | some col =>
      have inside := matched other col paired'
      omega
  | some col =>
    have inside := matched row col paired
    cases paired' : pairing other with
    | none =>
      have bound := beside other paired'
      omega
    | some col' =>
      have inside' := matched other col' paired'
      have sameCol : col = col' := by
        apply Fin.ext
        omega
      subst sameCol
      exact pairing.inj paired paired'

/-- Columns for all rows: the partner of a row that has one, and one beside the rectangle for every
open row. -/
private theorem exists_image (wide : cols ≤ n) (enough : rows + cols ≤ n + pairing.size) :
    ∃ image : Fin rows → Fin n, Function.Injective image ∧
      (∀ row col, pairing row = some col → (image row).val = col.val) ∧
        ∀ row, pairing row = none → cols ≤ (image row).val := by
  obtain ⟨spare, distinct, outside⟩ := exists_spare wide enough
  have target : ∀ row, ∃ image : Fin n,
      (∀ col, pairing row = some col → image.val = col.val) ∧
        ∀ isOpen : pairing row = none, image = spare ⟨row, isOpen⟩ := by
    intro row
    by_cases isOpen : pairing row = none
    · exact ⟨spare ⟨row, isOpen⟩, by simp [isOpen], fun _ => rfl⟩
    · obtain ⟨col, paired⟩ := Option.ne_none_iff_exists'.mp isOpen
      exact ⟨col.castLE wide, by simp [paired], fun isOpen' => absurd isOpen' isOpen⟩
  choose image matched isSpare using target
  have beside : ∀ row, pairing row = none → cols ≤ (image row).val := by
    intro row isOpen
    rw [isSpare row isOpen]
    exact outside ⟨row, isOpen⟩
  refine ⟨image, injective_of_partners matched beside ?_, matched, beside⟩
  intro row other isOpen isOpen' same
  rw [isSpare row isOpen, isSpare other isOpen'] at same
  exact congrArg Subtype.val (distinct same)

/-- A pairing that leaves few enough rows and columns open is the real part of a permutation. -/
theorem exists_realPart_eq (tall : rows ≤ n) (wide : cols ≤ n)
    (enough : rows + cols ≤ n + pairing.size) :
    ∃ permutation : Equiv.Perm (Fin n), realPart permutation = pairing := by
  obtain ⟨image, injective, matched, beside⟩ := exists_image wide enough
  obtain ⟨permutation, extending⟩ := Equiv.Perm.exists_extending_pair (Fin.castLE tall) image
    (Fin.castLE_injective tall) injective
  refine ⟨permutation, PEquiv.ext fun row => Option.ext fun col => ?_⟩
  have inside : row.val < n := (row.castLE tall).isLt
  rw [realPart_eq_some_iff, exists_prop_of_true inside]
  change (permutation (row.castLE tall)).val = col.val ↔ _
  rw [extending]
  constructor
  · intro real
    cases paired : pairing row with
    | none =>
      have bound := beside row paired
      omega
    | some col' => rw [Fin.ext ((matched row col' paired).symm.trans real)]
  · exact matched row col

/-- What a permutation picks from cells that are zero outside the rectangle is picked by its real
part. -/
theorem sum_eq_total_realPart (tall : rows ≤ n) (permutation : Equiv.Perm (Fin n))
    (cell : Nat → Nat → ℚ)
    (outside : ∀ row col, rows ≤ row ∨ cols ≤ col → cell row col = 0) :
    ∑ row, cell row.val (permutation row).val =
      (realPart permutation : Pairing rows cols).total fun row col => cell row.val col.val := by
  obtain ⟨below, rfl⟩ := Nat.exists_eq_add_of_le tall
  have filled : ∑ row : Fin below, cell (row.natAdd rows).val (permutation (row.natAdd rows)).val =
      0 := Finset.sum_eq_zero fun row _ => outside _ _ (.inl (Nat.le_add_right ..))
  rw [Fin.sum_univ_add, filled, add_zero, total, sum_pairs]
  refine Finset.sum_congr rfl fun row _ => ?_
  cases paired : (realPart permutation : Pairing rows cols) row with
  | none => exact outside _ _ (.inr (le_of_realPart_eq_none tall paired))
  | some col =>
    obtain ⟨inside, image⟩ := realPart_eq_some_iff.mp paired
    exact congrArg (cell row.val) image

end Pairing

end LinearAssignment
