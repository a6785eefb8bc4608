import LinearAssignment.Matrix.Extension
import Mathlib.Tactic.SplitIfs

/-! # The cells of a square problem

A cell of the square that is solved in place of a cost matrix lies where it lies in the matrix, or
outside of it. Filled and extended squares are written row after row without an index, so the place
of every cell follows from the widths of the rows before it.
-/

namespace LinearAssignment

open CostNumber (ofNat)

/-- Where an entry of some rows of one width lies when they are joined. -/
theorem getElem?_flatten_rows {α : Type} (rows : List (List α)) (width row col : Nat)
    (uniform : ∀ entries ∈ rows, entries.length = width) (inside : col < width) :
    rows.flatten[row * width + col]? = rows[row]?.bind (·[col]?) := by
  induction rows generalizing row with
  | nil => simp
  | cons first rest ih =>
    have length : first.length = width := uniform first (by simp)
    rw [List.flatten_cons]
    cases row with
    | zero =>
      rw [List.getElem?_append_left (by omega)]
      simp
    | succ row =>
      have position : (row + 1) * width + col = width + (row * width + col) := by
        rw [Nat.succ_mul]
        omega
      rw [position, List.getElem?_append_right (by omega), length, Nat.add_sub_cancel_left,
        ih row fun entries member => uniform entries (by simp [member])]
      simp

/-- The cells of a square are the costs of its pairs. -/
theorem SquareMatrix.mem_cells_iff {κ : Type} {n : Nat} {matrix : SquareMatrix κ n} {a : κ} :
    a ∈ matrix.cells.toList ↔ ∃ row col, matrix.get row col = a := by
  constructor
  · intro member
    obtain ⟨position, bound, found⟩ := List.mem_iff_getElem.mp member
    have inside : position < n * n := by
      rwa [Array.length_toList, matrix.size_eq] at bound
    have positive : 0 < n := Nat.pos_of_lt_mul_left inside
    refine ⟨⟨position / n, Nat.div_lt_of_lt_mul inside⟩, ⟨position % n, Nat.mod_lt _ positive⟩, ?_⟩
    rw [← found]
    simp only [get, Nat.div_add_mod', Array.getElem_toList]
  · rintro ⟨row, col, rfl⟩
    exact Array.getElem_mem_toList _

namespace CostMatrix

variable {κ : Type} [CostNumber κ] {cost : CostMatrix κ} {row col : Nat}

/-- The cost of a pair of indices, if both lie inside the matrix. -/
def get? (cost : CostMatrix κ) (row col : Nat) : Option κ :=
  if inside : row < cost.rows ∧ col < cost.cols then
    some (cost.get ⟨row, inside.1⟩ ⟨col, inside.2⟩)
  else none

@[simp] theorem get?_val (cost : CostMatrix κ) (row : Fin cost.rows) (col : Fin cost.cols) :
    cost.get? row.val col.val = some (cost.get row col) := by
  rw [get?, dif_pos ⟨row.isLt, col.isLt⟩]

theorem get?_eq_none (outside : cost.rows ≤ row ∨ cost.cols ≤ col) : cost.get? row col = none := by
  rw [get?, dif_neg]
  omega

/-- An entry with something in its place outside of the matrix. -/
theorem getD_get? (cost : CostMatrix κ) (row col : Nat) (a : κ) :
    (cost.get? row col).getD a = if inside : row < cost.rows ∧ col < cost.cols
      then cost.get ⟨row, inside.1⟩ ⟨col, inside.2⟩ else a := by
  rw [get?]
  split_ifs
  · rfl
  · rfl

/-- A matrix that is made of data has their shape and holds them. -/
theorem ofData_eq_ok {data : Array κ} {rows cols : Nat} (read : ofData data rows cols = .ok cost) :
    cost.rows = rows ∧ cost.cols = cols ∧ cost.data = data := by
  rw [ofData] at read
  split_ifs at read with shape size
  split at read
  · contradiction
  · cases read
    exact ⟨rfl, rfl, rfl⟩

/-- The cost of a pair is found in the data, row after row. -/
theorem getElem?_data_of_get? {value : κ} (entry : cost.get? row col = some value) :
    cost.data[row * cost.cols + col]? = some value := by
  rw [get?] at entry
  split_ifs at entry with inside
  rw [← Option.some.inj entry, get]
  exact Array.getElem?_eq_getElem _

/-- Both ways of reading an entry agree: as part of its row, and by its two indices. -/
theorem getElem?_row (cost : CostMatrix κ) (row : Fin cost.rows) (col : Nat) :
    (cost.row row).toList[col]? = cost.get? row.val col := by
  by_cases inside : col < cost.cols
  · have bound : row.val * cost.cols + col < cost.data.size := by
      rw [cost.size_eq]
      exact position_lt row.isLt inside
    rw [get?, dif_pos ⟨row.isLt, inside⟩, Array.getElem?_toList, CostMatrix.row,
      Array.getElem?_extract_of_lt (by omega)]
    rfl
  · rw [get?_eq_none (.inr (by omega))]
    refine List.getElem?_eq_none ?_
    rw [length_row]
    omega

/-! ## Squares -/

omit [CostNumber κ] in
private theorem get_eq_of_getElem? {n : Nat} {matrix : SquareMatrix κ n} {row col : Fin n} {a : κ}
    (found : matrix.cells.toList[row.val * n + col.val]? = some a) : matrix.get row col = a := by
  rw [Array.getElem?_toList] at found
  exact (Array.getElem_eq_iff).mpr found

/-- A row of the matrix that has been made wider. -/
private theorem getElem?_widened (cost : CostMatrix κ) (width : Nat) (wide : cost.cols ≤ width)
    (cell : κ) (inside : col < width) (below : row < cost.rows) :
    (cost.rowLists.map (· ++ List.replicate (width - cost.cols) cell)).flatten[row * width + col]? =
      some ((cost.get? row col).getD cell) := by
  rw [getElem?_flatten_rows _ width row col ?_ inside]
  · have entry : cost.rowLists[row]? = some (cost.row ⟨row, below⟩).toList := by
      simp [rowLists, below]
    rw [List.getElem?_map, entry, Option.map_some, Option.bind_some]
    by_cases real : col < cost.cols
    · rw [List.getElem?_append_left (by rwa [length_row]), getElem?_row, get?,
        dif_pos ⟨below, real⟩, Option.getD_some]
    · rw [List.getElem?_append_right (by rw [length_row]; omega), length_row,
        get?_eq_none (.inr (by omega)), Option.getD_none,
        List.getElem?_replicate_of_lt (by omega)]
  · intro entries member
    simp only [rowLists, List.map_map, List.mem_map, List.mem_finRange, true_and] at member
    obtain ⟨index, rfl⟩ := member
    simp only [Function.comp, List.length_append, length_row, List.length_replicate]
    omega

/-- A filled square has the costs of the matrix, and its sentinel everywhere else. -/
theorem get_padded (cost : CostMatrix κ) (sentinel : κ) (row col : Fin cost.dimension) :
    (cost.padded sentinel).get row col = (cost.get? row.val col.val).getD sentinel := by
  have wide : cost.cols ≤ cost.dimension := Nat.le_max_right ..
  have upper := cost.length_widened cost.dimension wide
    (List.replicate (cost.dimension - cost.cols) sentinel) List.length_replicate
  apply get_eq_of_getElem?
  rw [padded, List.toList_toArray]
  by_cases below : row.val < cost.rows
  · have position := position_lt below col.isLt
    rw [List.getElem?_append_left (by rwa [upper]),
      cost.getElem?_widened cost.dimension wide sentinel col.isLt below]
  · have position := position_lt row.isLt col.isLt
    have above : cost.rows * cost.dimension ≤ row.val * cost.dimension :=
      Nat.mul_le_mul_right _ (by omega)
    rw [List.getElem?_append_right (by omega), get?_eq_none (.inl (by omega)), Option.getD_none,
      upper]
    refine List.getElem?_replicate_of_lt ?_
    rw [Nat.sub_mul]
    omega

private theorem getElem?_openRow (cost : CostMatrix κ) (half : κ)
    (inside : col < cost.rows + cost.cols) :
    (cost.openRow half)[col]? = some (if col < cost.cols then half else ofNat 0) := by
  rw [openRow, List.getElem?_append, List.length_replicate]
  split_ifs with real
  · exact List.getElem?_replicate_of_lt real
  · exact List.getElem?_replicate_of_lt (by omega)

/-- An extended square has the costs of the matrix, half the limit beside and below them, and zero
where a cell is both. -/
theorem get_extended (cost : CostMatrix κ) (limit : κ) (row col : Fin (cost.rows + cost.cols)) :
    (cost.extended limit).get row col = (cost.get? row.val col.val).getD
      (if row.val < cost.rows ∨ col.val < cost.cols then limit / ofNat 2 else ofNat 0) := by
  have upper := cost.length_widened (cost.rows + cost.cols) (Nat.le_add_left ..)
    (List.replicate cost.rows (limit / ofNat 2)) (by rw [List.length_replicate]; omega)
  have spare : cost.rows = cost.rows + cost.cols - cost.cols := by omega
  apply get_eq_of_getElem?
  rw [extended, List.toList_toArray]
  by_cases below : row.val < cost.rows
  · have position := position_lt below col.isLt
    rw [List.getElem?_append_left (by rwa [upper]), if_pos (.inl below)]
    have cell := cost.getElem?_widened (cost.rows + cost.cols) (Nat.le_add_left ..)
      (limit / ofNat 2) col.isLt below
    rwa [← spare] at cell
  · obtain ⟨offset, split⟩ := Nat.exists_eq_add_of_le (Nat.le_of_not_lt below)
    have within : offset < cost.cols := by omega
    have position : row.val * (cost.rows + cost.cols) + col.val =
        cost.rows * (cost.rows + cost.cols) + (offset * (cost.rows + cost.cols) + col.val) := by
      rw [split, Nat.add_mul]
      omega
    rw [position, List.getElem?_append_right (by omega), upper, Nat.add_sub_cancel_left,
      getElem?_flatten_rows _ (cost.rows + cost.cols) _ _ ?_ col.isLt,
      List.getElem?_replicate_of_lt within, Option.bind_some, cost.getElem?_openRow _ col.isLt,
      get?_eq_none (.inl (by omega)), Option.getD_none]
    · simp only [below, false_or]
    · intro entries member
      rw [List.eq_of_mem_replicate member]
      simp [openRow, Nat.add_comm]

end CostMatrix

end LinearAssignment
