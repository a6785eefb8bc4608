import LinearAssignment.Proofs.Cost
import LinearAssignment.Proofs.Matrix

/-! # Matrices of nested rows

Rows of costs are joined before a matrix is made of them, and a place among the joined costs is
turned back into a row and a column where one of them is not finite. Rows are joined exactly when
all are as long as the first, the joined rows make a matrix exactly when they have entries and all
of these are finite, and then the matrix holds every entry at its row and column. What is reported
otherwise is the first row that is too long or too short, or the first entry that is not finite.
-/

namespace LinearAssignment

open CostNumber (isFinite)

variable {κ : Type}

/-! ## Joining the rows -/

namespace Flattened

/-- The number of columns of nested rows: the length of the first. -/
def width (nested : List (List κ)) : Nat := (nested.head?.getD []).length

/-- The entry of nested rows at a row and a column. -/
def cell? (nested : List (List κ)) (row col : Nat) : Option κ := nested[row]?.bind (·[col]?)

variable {nested : List (List κ)}

theorem ofRows_eq (nested : List (List κ)) :
    ofRows nested = match nested.find? fun entries => entries.length ≠ width nested with
      | some entries => .error (.dataLength (width nested) entries.length)
      | none => .ok ⟨nested.flatten.toArray, nested.length, width nested⟩ := rfl

/-- Rows of one length are joined as they are. -/
theorem ofRows_of_uniform (uniform : ∀ entries ∈ nested, entries.length = width nested) :
    ofRows nested = .ok ⟨nested.flatten.toArray, nested.length, width nested⟩ := by
  have fitting : nested.find? (fun entries => entries.length ≠ width nested) = none := by
    rw [List.find?_eq_none]
    intro entries member
    simpa using uniform entries member
  rw [ofRows_eq, fitting]

/-- Of other rows the first one that is too long or too short is reported. -/
theorem ofRows_of_deviation (deviation : ¬ ∀ entries ∈ nested, entries.length = width nested) :
    ∃ row, ∃ bound : row < nested.length,
      nested[row].length ≠ width nested ∧
        (∀ earlier, ∀ before : earlier < row, nested[earlier].length = width nested) ∧
        ofRows nested = .error (.dataLength (width nested) nested[row].length) := by
  have found : nested.find? (fun entries => entries.length ≠ width nested) ≠ none := by
    rw [Ne, List.find?_eq_none]
    simpa using deviation
  obtain ⟨entries, first⟩ := Option.ne_none_iff_exists'.mp found
  obtain ⟨deviates, row, bound, rfl, earlier⟩ := List.find?_eq_some_iff_getElem.mp first
  refine ⟨row, bound, by simpa using deviates, by simpa using earlier, ?_⟩
  rw [ofRows_eq, first]

/-- The entry at a row and a column is found among the joined rows. -/
theorem getElem?_flatten (uniform : ∀ entries ∈ nested, entries.length = width nested)
    (row : Nat) {col : Nat} (inside : col < width nested) :
    nested.flatten[row * width nested + col]? = cell? nested row col :=
  getElem?_flatten_rows nested (width nested) row col uniform inside

/-- There are no entries beyond the first row's length. -/
theorem lt_width_of_cell? (uniform : ∀ entries ∈ nested, entries.length = width nested)
    {row col : Nat} {a : κ} (entry : cell? nested row col = some a) : col < width nested := by
  obtain ⟨entries, found, entry⟩ := Option.bind_eq_some_iff.mp entry
  rw [← uniform entries (List.mem_of_getElem? found)]
  exact (List.getElem?_eq_some_iff.mp entry).1

theorem length_flatten (uniform : ∀ entries ∈ nested, entries.length = width nested) :
    nested.flatten.length = nested.length * width nested := by
  rw [List.length_flatten, List.map_congr_left uniform, List.map_const', List.sum_replicate_nat]

end Flattened

/-! ## Making a matrix of joined rows -/

variable [CostNumber κ]

namespace CostMatrix

/-- A matrix is made of data exactly when its shape has entries and can be counted, the data have
its size and all costs are finite. -/
theorem exists_ofData_iff {data : Array κ} {rows cols : Nat} :
    (∃ cost, ofData data rows cols = .ok cost) ↔
      (0 < rows ∧ 0 < cols ∧ rows * cols < wordSize) ∧ data.size = rows * cols ∧
        ∀ a ∈ data, isFinite a = true := by
  rw [ofData]
  split_ifs with shape size
  · split
    · rename_i position found
      obtain ⟨fault, _⟩ := Array.findFinIdx?_eq_some_iff.mp found
      simp only [reduceCtorEq, exists_false, false_iff]
      rintro ⟨_, _, finite⟩
      have ordinary : isFinite data[position] = true := finite _ (Array.getElem_mem position.isLt)
      rw [ordinary] at fault
      contradiction
    · rename_i found
      have finite := Array.findFinIdx?_eq_none_iff.mp found
      simp only [Except.ok.injEq, exists_eq', true_iff]
      exact ⟨shape, size, by simpa using finite⟩
  · simp [size]
  · simp [shape]

/-- If some cost is not finite, the first such cost is reported with its row and its column. -/
theorem ofData_of_fault {data : Array κ} {rows cols : Nat}
    (shape : 0 < rows ∧ 0 < cols ∧ rows * cols < wordSize) (size : data.size = rows * cols)
    (fault : ∃ a ∈ data, isFinite a = false) :
    ∃ position, ∃ inside : position < data.size,
      isFinite data[position] = false ∧
        (∀ earlier, ∀ bound : earlier < data.size, earlier < position →
          isFinite data[earlier] = true) ∧
        ofData data rows cols =
          .error (.notFinite (position / cols) (position % cols) data[position]) := by
  rw [ofData, dif_pos shape, dif_pos size]
  split
  · rename_i position found
    obtain ⟨infinite, earlier⟩ := Array.findFinIdx?_eq_some_iff.mp found
    simp only [Bool.not_eq_true', Bool.not_eq_false] at infinite earlier
    exact ⟨position, position.isLt, infinite, fun place bound => earlier ⟨place, bound⟩, rfl⟩
  · rename_i found
    obtain ⟨a, member, infinite⟩ := fault
    have finite := Array.findFinIdx?_eq_none_iff.mp found a member
    rw [infinite] at finite
    contradiction

end CostMatrix

/-! ## Matrices of nested rows -/

namespace Flattened

variable {nested : List (List κ)}

/-- The first entry of nested rows, row after row, that is not finite. -/
structure FirstFault (nested : List (List κ)) (row col : Nat) (value : κ) : Prop where
  entry : cell? nested row col = some value
  fault : isFinite value = false
  first : ∀ row' col' value', row' < row ∨ row' = row ∧ col' < col →
    cell? nested row' col' = some value' → isFinite value' = true

/-- Entries come earlier among the joined rows if they come earlier row after row. -/
private theorem position_lt_of_before {width row col row' col' : Nat} (inside : col' < width)
    (before : row' < row ∨ row' = row ∧ col' < col) : row' * width + col' < row * width + col := by
  rcases before with above | ⟨rfl, left⟩
  · calc row' * width + col' < row' * width + width := by omega
      _ = (row' + 1) * width := (Nat.succ_mul row' width).symm
      _ ≤ row * width := Nat.mul_le_mul_right width above
      _ ≤ row * width + col := Nat.le_add_right ..
  · omega

/-- Joined rows with an entry that is not finite make no matrix, and the first such entry is
reported at its row and column. -/
theorem exists_firstFault (uniform : ∀ entries ∈ nested, entries.length = width nested)
    (counted : nested.length * width nested < wordSize)
    (fault : ∃ entries ∈ nested, ∃ a ∈ entries, isFinite a = false) :
    ∃ row col value, FirstFault nested row col value ∧
      CostMatrix.ofData nested.flatten.toArray nested.length (width nested) =
        .error (.notFinite row col value) := by
  have size : nested.flatten.toArray.size = nested.length * width nested :=
    List.size_toArray.trans (length_flatten uniform)
  obtain ⟨entries, member, a, entry, infinite⟩ := fault
  have joined : a ∈ nested.flatten.toArray := by simpa using ⟨entries, member, entry⟩
  have inhabited : 0 < nested.length * width nested := size ▸ Array.size_pos_of_mem joined
  have wide : 0 < width nested := Nat.pos_of_mul_pos_left inhabited
  have tall : 0 < nested.length := Nat.pos_of_mul_pos_right inhabited
  obtain ⟨position, inside, infinite, earlier, reported⟩ :=
    CostMatrix.ofData_of_fault ⟨tall, wide, counted⟩ size ⟨a, joined, infinite⟩
  have entry : cell? nested (position / width nested) (position % width nested) =
      some nested.flatten.toArray[position] := by
    rw [← getElem?_flatten uniform _ (Nat.mod_lt _ wide), Nat.div_add_mod']
    exact List.getElem?_eq_getElem inside
  refine ⟨_, _, _, ⟨entry, infinite, fun row' col' value' before entry' => ?_⟩, reported⟩
  have inside' := lt_width_of_cell? uniform entry'
  have before' := position_lt_of_before inside' before
  rw [← getElem?_flatten uniform row' inside'] at entry'
  obtain ⟨bound, rfl⟩ := List.getElem?_eq_some_iff.mp entry'
  rw [Nat.div_add_mod'] at before'
  exact earlier _ (by simpa using bound) before'

/-- A matrix of joined rows holds every entry at its row and column. -/
theorem cell?_of_ofData {cost : CostMatrix κ}
    (uniform : ∀ entries ∈ nested, entries.length = width nested)
    (made : CostMatrix.ofData nested.flatten.toArray nested.length (width nested) = .ok cost)
    (row col : Nat) : cost.get? row col = cell? nested row col := by
  obtain ⟨rows, cols, data⟩ := CostMatrix.ofData_eq_ok made
  by_cases inside : row < cost.rows ∧ col < cost.cols
  · obtain ⟨value, known⟩ : ∃ value, cost.get? row col = some value := ⟨_, dif_pos inside⟩
    have position := CostMatrix.getElem?_data_of_get? known
    rw [data, cols, List.getElem?_toArray, getElem?_flatten uniform row (cols ▸ inside.2)]
      at position
    rw [known, position]
  · rw [CostMatrix.get?, dif_neg inside, eq_comm, Option.eq_none_iff_forall_ne_some]
    intro a entry
    obtain ⟨entries, found, _⟩ := Option.bind_eq_some_iff.mp entry
    apply inside
    rw [rows, cols]
    exact ⟨(List.getElem?_eq_some_iff.mp found).1, lt_width_of_cell? uniform entry⟩

/-- Its rows are the ones that were joined. -/
theorem getElem?_of_ofData {cost : CostMatrix κ}
    (uniform : ∀ entries ∈ nested, entries.length = width nested)
    (made : CostMatrix.ofData nested.flatten.toArray nested.length (width nested) = .ok cost)
    (row : Fin cost.rows) : nested[row.val]? = some (cost.row row).toList := by
  obtain ⟨rows, _, _⟩ := CostMatrix.ofData_eq_ok made
  have bound : row.val < nested.length := rows ▸ row.isLt
  rw [List.getElem?_eq_getElem bound]
  refine congrArg some (List.ext_getElem? fun col => ?_)
  rw [CostMatrix.getElem?_row, cell?_of_ofData uniform made, cell?,
    List.getElem?_eq_getElem bound, Option.bind_some]

/-- Nested rows are taken in exactly. They are joined if and only if all are as long as the first,
and otherwise the length of the first other one is reported. Joined rows make a matrix if and only
if there are a row and a column and all entries are finite; each entry then is where it was, and
each row is the one it was. If some entry is not finite, the first one is reported with its row and
its column. -/
theorem ofData_ofRows (counted : nested.length * width nested < wordSize) :
    ((∃ joined, ofRows nested = .ok joined) ↔
        ∀ entries ∈ nested, entries.length = width nested) ∧
      (∀ refusal, ofRows nested = .error refusal →
        ∃ row, ∃ bound : row < nested.length, nested[row].length ≠ width nested ∧
          (∀ earlier, ∀ before : earlier < row, nested[earlier].length = width nested) ∧
          refusal = .dataLength (width nested) nested[row].length) ∧
      ∀ joined, ofRows nested = .ok joined →
        ((∃ cost, CostMatrix.ofData joined.data joined.rows joined.cols = .ok cost) ↔
            0 < nested.length ∧ 0 < width nested ∧
              ∀ entries ∈ nested, ∀ a ∈ entries, isFinite a = true) ∧
          (∀ cost, CostMatrix.ofData joined.data joined.rows joined.cols = .ok cost →
            cost.rows = nested.length ∧ cost.cols = width nested ∧
              (∀ row col, cell? nested row.val col.val = some (cost.get row col)) ∧
              ∀ row, nested[row.val]? = some (cost.row row).toList) ∧
          ((∃ entries ∈ nested, ∃ a ∈ entries, isFinite a = false) →
            ∃ row col value, FirstFault nested row col value ∧
              CostMatrix.ofData joined.data joined.rows joined.cols =
                .error (.notFinite row col value)) := by
  by_cases uniform : ∀ entries ∈ nested, entries.length = width nested
  · have joined_eq := ofRows_of_uniform uniform
    refine ⟨⟨fun _ => uniform, fun _ => ⟨_, joined_eq⟩⟩, fun refusal refused => ?_,
      fun joined success => ?_⟩
    · rw [joined_eq] at refused
      contradiction
    · obtain rfl := Except.ok.inj (joined_eq.symm.trans success)
      refine ⟨?_, fun cost made => ?_, exists_firstFault uniform counted⟩
      · rw [CostMatrix.exists_ofData_iff, List.size_toArray, length_flatten uniform]
        simp only [List.mem_toArray, List.mem_flatten]
        constructor
        · rintro ⟨⟨tall, wide, _⟩, _, finite⟩
          exact ⟨tall, wide, fun entries member a entry => finite a ⟨entries, member, entry⟩⟩
        · rintro ⟨tall, wide, finite⟩
          refine ⟨⟨tall, wide, counted⟩, trivial, ?_⟩
          rintro a ⟨entries, member, entry⟩
          exact finite entries member a entry
      · obtain ⟨rows, cols, _⟩ := CostMatrix.ofData_eq_ok made
        refine ⟨rows, cols, fun row col => ?_, getElem?_of_ofData uniform made⟩
        rw [← cell?_of_ofData uniform made, CostMatrix.get?_val]
  · obtain ⟨row, bound, deviates, earlier, refused⟩ := ofRows_of_deviation uniform
    refine ⟨⟨fun ⟨joined, success⟩ => ?_, fun all => absurd all uniform⟩, fun refusal refused' => ?_,
      fun joined success => ?_⟩
    · rw [refused] at success
      contradiction
    · exact ⟨row, bound, deviates, earlier, (Except.error.inj (refused.symm.trans refused')).symm⟩
    · rw [refused] at success
      contradiction

/-- In the second of two rows an infinite entry stands before an undefined one. -/
theorem ofData_ofRows_second_row :
    let nested : List (List Float) := [[1, 2, 3], [4, 1 / 0, 0 / 0]]
    nested.length * width nested < wordSize ∧
      ∃ joined, ofRows nested = .ok joined ∧
        (¬ ∃ cost, CostMatrix.ofData joined.data joined.rows joined.cols = .ok cost) ∧
        ∃ row col value, FirstFault nested row col value ∧
          CostMatrix.ofData joined.data joined.rows joined.cols =
            .error (.notFinite row col value) := by
  intro nested
  have counted : nested.length * width nested < wordSize := by decide
  have infinite : isFinite (1 / 0 : Float) = false := by decide +kernel
  obtain ⟨joins, _, makes⟩ := ofData_ofRows counted
  obtain ⟨joined, joined_eq⟩ := joins.mpr (by decide)
  obtain ⟨made, _, reported⟩ := makes joined joined_eq
  have fault : ∃ entries ∈ nested, ∃ a ∈ entries, isFinite a = false :=
    ⟨_, List.mem_cons_of_mem _ (List.mem_cons_self ..), 1 / 0, by simp, infinite⟩
  refine ⟨counted, joined, joined_eq, fun success => ?_, reported fault⟩
  obtain ⟨_, _, finite⟩ := made.mp success
  obtain ⟨entries, member, a, entry, bad⟩ := fault
  rw [finite entries member a entry] at bad
  contradiction

end Flattened

end LinearAssignment
