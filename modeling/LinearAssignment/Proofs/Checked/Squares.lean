import LinearAssignment.Proofs.SquareProblem

/-! # Squares written row after row

A filled or extended square is written into one buffer: the costs of a row are appended, and then
the buffer is lengthened relative to what it holds already. Lengths are machine words, and here a
sum, difference or product that is none gives no result. The buffer always comes to hold the cells
of the square, as long as the bytes of the square are fewer than half of all words. So the place of
every cell is known: the costs of the matrix keep their row and column, and the other cells hold the
sentinel, or half the limit, or zero.
-/

namespace LinearAssignment

open CostNumber (ofNat)

/-! ## Words and buffers -/

/-- The sum of two words, if it is a word. -/
def addWord (a b : Nat) : Option Nat := if a + b < wordSize then some (a + b) else none

/-- The difference of two words, if it is a word. -/
def subWord (a b : Nat) : Option Nat := if b ≤ a then some (a - b) else none

/-- The product of two words, if it is a word. -/
def mulWord (a b : Nat) : Option Nat := if a * b < wordSize then some (a * b) else none

theorem addWord_eq {a b : Nat} (bound : a + b < wordSize) : addWord a b = some (a + b) :=
  if_pos bound

theorem subWord_eq {a b : Nat} (bound : b ≤ a) : subWord a b = some (a - b) := if_pos bound

theorem mulWord_eq {a b : Nat} (bound : a * b < wordSize) : mulWord a b = some (a * b) :=
  if_pos bound

section

variable {α : Type}

/-- A buffer made to hold some number of entries: cut off behind them, or filled up. -/
def resized (buffer : Array α) (length : Nat) (entry : α) : Array α :=
  buffer.take length ++ Array.replicate (length - buffer.size) entry

/-- Lengthening a buffer appends to it. -/
theorem resized_add (buffer : Array α) (more : Nat) (entry : α) :
    resized buffer (buffer.size + more) entry =
      buffer ++ (List.replicate more entry).toArray := by
  rw [resized, Nat.add_sub_cancel_left, Array.take_eq_extract,
    Array.extract_eq_self_of_le (Nat.le_add_right ..), List.toArray_replicate]

/-- Steps that append as many entries each, as long as there is room, append all of them. -/
theorem foldlM_append {ι : Type} {step : Array α → ι → Option (Array α)} {entries : ι → List α}
    {width limit : Nat} (widths : ∀ item, (entries item).length = width)
    (append : ∀ buffer item, buffer.size + width ≤ limit →
      step buffer item = some (buffer ++ (entries item).toArray))
    (items : List ι) (buffer : Array α) (room : buffer.size + items.length * width ≤ limit) :
    items.foldlM step buffer = some (buffer ++ (items.map entries).flatten.toArray) := by
  induction items generalizing buffer with
  | nil => simp
  | cons item rest ih =>
    rw [List.length_cons, Nat.succ_mul] at room
    have size : (buffer ++ (entries item).toArray).size = buffer.size + width := by
      simp only [Array.size_append, List.size_toArray, widths]
    rw [List.foldlM_cons, append buffer item (by omega)]
    refine (ih _ (by omega)).trans ?_
    rw [List.map_cons, List.flatten_cons, ← List.append_toArray, Array.append_assoc]

end

variable {κ : Type} [CostNumber κ]

/-! ## Writing the squares -/

namespace CostMatrix

/-- The costs of a row, between the words at which they begin and end. -/
def rowChecked (cost : CostMatrix κ) (row : Fin cost.rows) : Option (Array κ) := do
  let start ← mulWord row cost.cols
  let stop ← addWord start cost.cols
  guard (stop ≤ cost.data.size)
  return cost.data.extract start stop

/-- Append a row to the buffer and fill up with the sentinel to the width of the square. -/
def padRow (cost : CostMatrix κ) (sentinel : κ) (buffer : Array κ) (row : Fin cost.rows) :
    Option (Array κ) := do
  let buffer := buffer ++ (← cost.rowChecked row)
  let longer ← addWord buffer.size cost.dimension
  return resized buffer (← subWord longer cost.cols) sentinel

/-- Write the filled square: every row to the full width, then all that is left. -/
def paddedChecked (cost : CostMatrix κ) (sentinel : κ) : Option (Array κ) := do
  let buffer ← (List.finRange cost.rows).foldlM (cost.padRow sentinel) #[]
  return resized buffer (← mulWord cost.dimension cost.dimension) sentinel

/-- Append a row to the buffer, and behind it half the limit for every row. -/
def extendRow (cost : CostMatrix κ) (half : κ) (buffer : Array κ) (row : Fin cost.rows) :
    Option (Array κ) := do
  let buffer := buffer ++ (← cost.rowChecked row)
  return resized buffer (← addWord buffer.size cost.rows) half

/-- Append half the limit for every column, and behind it zero for every row. -/
def appendOpenRow (cost : CostMatrix κ) (half : κ) (buffer : Array κ) (_index : Nat) :
    Option (Array κ) := do
  let buffer := resized buffer (← addWord buffer.size cost.cols) half
  return resized buffer (← addWord buffer.size cost.rows) (ofNat 0)

/-- Write the extended square: the rows of the matrix, then a row for every column. -/
def extendedChecked (cost : CostMatrix κ) (limit : κ) : Option (Array κ) := do
  let half := limit / ofNat 2
  let buffer ← (List.finRange cost.rows).foldlM (cost.extendRow half) #[]
  (List.range cost.cols).foldlM (cost.appendOpenRow half) buffer

variable {cost : CostMatrix κ}

/-- A row of the matrix lies between words. -/
theorem rowChecked_eq (cost : CostMatrix κ) (row : Fin cost.rows) :
    cost.rowChecked row = some (cost.row row) := by
  have inside : row.val * cost.cols + cost.cols ≤ cost.rows * cost.cols := by
    rw [← Nat.succ_mul]
    exact Nat.mul_le_mul_right _ row.isLt
  have bound := cost.size_lt
  rw [rowChecked, mulWord_eq (by omega)]
  simp only [Option.bind_eq_bind, Option.bind_some]
  rw [addWord_eq (by omega)]
  simp [cost.size_eq, inside, CostMatrix.row]

/-- Steps that append the rows with a filling behind each, as long as there is room, write all
rows. -/
theorem foldlM_rows (cost : CostMatrix κ) {step : Array κ → Fin cost.rows → Option (Array κ)}
    {filling : List κ} {width limit : Nat} (wide : cost.cols ≤ width)
    (length : filling.length = width - cost.cols)
    (append : ∀ buffer row, buffer.size + width ≤ limit →
      step buffer row = some (buffer ++ ((cost.row row).toList ++ filling).toArray))
    (room : cost.rows * width ≤ limit) :
    (List.finRange cost.rows).foldlM step #[] =
      some (cost.rowLists.map (· ++ filling)).flatten.toArray := by
  have widths : ∀ row, ((cost.row row).toList ++ filling).length = width := fun row => by
    rw [List.length_append, length_row, length, Nat.add_sub_cancel' wide]
  rw [foldlM_append widths append (List.finRange cost.rows) #[] (by simpa using room),
    Array.empty_append, rowLists, List.map_map]
  rfl

private theorem three_mul_lt_wordSize {cells : Nat} (stored : entryBytes * cells < wordSize / 2) :
    3 * cells < wordSize := by
  have bytes : entryBytes = 8 := rfl
  rw [bytes] at stored
  omega

/-- A row that is appended and filled up to the width of the square. -/
theorem padRow_eq (cost : CostMatrix κ) (sentinel : κ) {buffer : Array κ} (row : Fin cost.rows)
    (room : 2 * (buffer.size + cost.dimension) < wordSize) :
    cost.padRow sentinel buffer row = some (buffer ++
      ((cost.row row).toList ++
        List.replicate (cost.dimension - cost.cols) sentinel).toArray) := by
  have wide : cost.cols ≤ cost.dimension := Nat.le_max_right ..
  have size : (buffer ++ cost.row row).size = buffer.size + cost.cols := by
    rw [Array.size_append, ← Array.length_toList, ← Array.length_toList, length_row]
  have lengthened : (buffer ++ cost.row row).size + cost.dimension - cost.cols =
      (buffer ++ cost.row row).size + (cost.dimension - cost.cols) := by
    omega
  simp only [padRow, rowChecked_eq, Option.bind_eq_bind, Option.bind_some]
  rw [addWord_eq (by omega), Option.bind_some, subWord_eq (by omega), Option.bind_some, lengthened,
    resized_add, ← List.append_toArray, Array.toArray_toList, Array.append_assoc]
  rfl

/-- Where the bytes of the filled square are fewer than half of all words, writing it meets no
length that is not a word. -/
theorem paddedChecked_eq (cost : CostMatrix κ) (sentinel : κ)
    (stored : entryBytes * (cost.dimension * cost.dimension) < wordSize / 2) :
    cost.paddedChecked sentinel = some (cost.padded sentinel).cells := by
  have bound := three_mul_lt_wordSize stored
  have tall : cost.rows ≤ cost.dimension := Nat.le_max_left ..
  have wide : cost.cols ≤ cost.dimension := Nat.le_max_right ..
  have room : cost.rows * cost.dimension ≤ cost.dimension * cost.dimension :=
    Nat.mul_le_mul_right _ tall
  have rest : cost.dimension * cost.dimension =
      cost.rows * cost.dimension + (cost.dimension - cost.rows) * cost.dimension := by
    rw [← Nat.add_mul, Nat.add_sub_cancel' tall]
  have upper := cost.length_widened cost.dimension wide
    (List.replicate (cost.dimension - cost.cols) sentinel) List.length_replicate
  have written := cost.foldlM_rows wide List.length_replicate
    (fun buffer row room => cost.padRow_eq sentinel row (by omega)) room
  rw [paddedChecked, written]
  simp only [Option.bind_eq_bind, Option.bind_some, padded]
  rw [mulWord_eq (by omega), Option.bind_some, rest, ← upper, ← List.size_toArray, resized_add,
    List.append_toArray]
  rfl

/-- A row that is appended with half the limit behind it. -/
theorem extendRow_eq (cost : CostMatrix κ) (half : κ) {buffer : Array κ} (row : Fin cost.rows)
    (room : buffer.size + (cost.rows + cost.cols) < wordSize) :
    cost.extendRow half buffer row = some (buffer ++
      ((cost.row row).toList ++ List.replicate cost.rows half).toArray) := by
  have size : (buffer ++ cost.row row).size = buffer.size + cost.cols := by
    rw [Array.size_append, ← Array.length_toList, ← Array.length_toList, length_row]
  simp only [extendRow, rowChecked_eq, Option.bind_eq_bind, Option.bind_some]
  rw [addWord_eq (by omega), Option.bind_some, resized_add, ← List.append_toArray,
    Array.toArray_toList, Array.append_assoc]
  rfl

/-- A row that stands for a column. -/
theorem appendOpenRow_eq (cost : CostMatrix κ) (half : κ) {buffer : Array κ} (index : Nat)
    (room : buffer.size + (cost.rows + cost.cols) < wordSize) :
    cost.appendOpenRow half buffer index =
      some (buffer ++ (cost.openRow half).toArray) := by
  simp only [appendOpenRow, Option.bind_eq_bind]
  rw [addWord_eq (by omega), Option.bind_some, resized_add, addWord_eq, Option.bind_some,
    resized_add, openRow, ← List.append_toArray, Array.append_assoc]
  · rfl
  · simp only [Array.size_append, List.size_toArray, List.length_replicate]
    omega

/-- Where the bytes of the extended square are fewer than half of all words, writing it meets no
length that is not a word. -/
theorem extendedChecked_eq (cost : CostMatrix κ) (limit : κ)
    (stored : entryBytes * ((cost.rows + cost.cols) * (cost.rows + cost.cols)) < wordSize / 2) :
    cost.extendedChecked limit = some (cost.extended limit).cells := by
  have bound := three_mul_lt_wordSize stored
  have total : cost.rows * (cost.rows + cost.cols) + cost.cols * (cost.rows + cost.cols) =
      (cost.rows + cost.cols) * (cost.rows + cost.cols) := (Nat.add_mul ..).symm
  have wide : cost.cols ≤ cost.rows + cost.cols := Nat.le_add_left ..
  have filling : (List.replicate cost.rows (limit / ofNat 2)).length =
      cost.rows + cost.cols - cost.cols := by
    rw [List.length_replicate, Nat.add_sub_cancel]
  have upper := cost.length_widened (cost.rows + cost.cols) wide _ filling
  have written := cost.foldlM_rows wide filling
    (fun buffer row room => cost.extendRow_eq (limit / ofNat 2) row (by omega))
    (Nat.le.intro total)
  have opened (_ : Nat) : (cost.openRow (limit / ofNat 2)).length = cost.rows + cost.cols := by
    simp [openRow, Nat.add_comm]
  have room : ((cost.rowLists.map
        (· ++ List.replicate cost.rows (limit / ofNat 2))).flatten.toArray).size +
      (List.range cost.cols).length * (cost.rows + cost.cols) ≤
        (cost.rows + cost.cols) * (cost.rows + cost.cols) := by
    rw [List.size_toArray, upper, List.length_range, total]
  have appended := foldlM_append opened
    (fun buffer index room => cost.appendOpenRow_eq (limit / ofNat 2) index (by omega))
    (List.range cost.cols) _ room
  rw [extendedChecked, written]
  simp only [Option.bind_eq_bind, Option.bind_some, extended]
  rw [appended, List.map_const', List.length_range, List.append_toArray]

end CostMatrix

/-! ## The square problem -/

namespace SquareProblem

/-- The side and the cells of the square problem of some options, with the buffers written in
words. -/
def cellsChecked (cost : CostMatrix κ) (options : Options κ) :
    Option (Except (Refusal κ) (Nat × Array κ)) :=
  if !cost.isSquare && !options.extendCost then
    some (.error (.rectangular cost.rows cost.cols))
  else if options.limitStrategy = .augmented ∧ options.isLimited = true then do
    let side ← addWord cost.rows cost.cols
    match room side with
    | .error refusal => return .error refusal
    | .ok _ => return .ok (side, ← cost.extendedChecked options.costLimit)
  else if cost.rows = cost.cols then
    some (.ok (cost.rows, cost.data))
  else
    match room cost.dimension with
    | .error refusal => some (.error refusal)
    | .ok _ => do
      let sentinel := cost.sentinelCost options.costLimit
      return .ok (cost.dimension, ← cost.paddedChecked sentinel)

variable {cost : CostMatrix κ} {options : Options κ} {problem : SquareProblem κ}

omit [CostNumber κ] in
/-- The bytes of a square that there is room for are fewer than half of all words. -/
private theorem stored_of_room {side : Nat}
    (granted : (room side : Except (Refusal κ) Unit) = .ok ()) :
    entryBytes * (side * side) < wordSize / 2 :=
  (fits_of_room granted).trans_lt (by decide)

/-- Writing a square problem that there is room for meets no length that is not a word. -/
theorem cellsChecked_eq (made : ofCost cost options = .ok problem) :
    cellsChecked cost options = some (.ok (problem.dimension, problem.matrix.cells)) := by
  obtain ⟨shape, cases⟩ := ofCost_cases made
  have accepted : ¬ (!cost.isSquare && !options.extendCost) = true :=
    Bool.eq_false_iff.mp (not_rectangular shape)
  rw [cellsChecked, if_neg accepted]
  rcases cases with ⟨limited, granted, rfl⟩ | ⟨unlimited, ⟨square, rfl⟩ | ⟨rectangular, granted, rfl⟩⟩
  · have stored := stored_of_room granted
    have side : addWord cost.rows cost.cols = some (cost.rows + cost.cols) := by
      have bound := CostMatrix.three_mul_lt_wordSize stored
      have small := Nat.le_mul_self (cost.rows + cost.cols)
      exact addWord_eq (by omega)
    rw [if_pos limited, side]
    simp [granted, cost.extendedChecked_eq options.costLimit stored, byExtension]
  · rw [if_neg unlimited, if_pos square]
    rfl
  · rw [if_neg unlimited, if_neg rectangular, granted]
    simp [cost.paddedChecked_eq _ (stored_of_room granted), byPadding]

/-- Every cell of a square problem is known. A square matrix is solved as it is. A rectangular one
is filled up with its sentinel to the longer of its sides. A finite limit that takes part extends
the matrix by its rows and its columns: with half the limit where a cell lies beyond one of its
sides, and with zero where it lies beyond both. Writing these cells row after row into one buffer
meets no length that is not a word, as long as the bytes of the square are fewer than half of all
words; and so they are wherever there is a square problem. -/
theorem ofCost_places (made : ofCost cost options = .ok problem) :
    problem.matrix.cells.size = problem.dimension * problem.dimension ∧
      (¬ (options.limitStrategy = .augmented ∧ options.isLimited = true) →
        cost.rows = cost.cols → problem.dimension = cost.rows ∧
          ∀ row col : Fin problem.dimension,
            ∃ (inRows : row.val < cost.rows) (inCols : col.val < cost.cols),
              problem.matrix.get row col = cost.get ⟨row.val, inRows⟩ ⟨col.val, inCols⟩) ∧
      (¬ (options.limitStrategy = .augmented ∧ options.isLimited = true) →
        cost.rows ≠ cost.cols → problem.dimension = max cost.rows cost.cols ∧
          ∀ row col : Fin problem.dimension, problem.matrix.get row col =
            if inside : row.val < cost.rows ∧ col.val < cost.cols
              then cost.get ⟨row.val, inside.1⟩ ⟨col.val, inside.2⟩
            else cost.sentinelCost options.costLimit) ∧
      (options.limitStrategy = .augmented ∧ options.isLimited = true →
        problem.dimension = cost.rows + cost.cols ∧
          ∀ row col : Fin problem.dimension, problem.matrix.get row col =
            if inside : row.val < cost.rows ∧ col.val < cost.cols
              then cost.get ⟨row.val, inside.1⟩ ⟨col.val, inside.2⟩
            else if cost.rows ≤ row.val ∧ cost.cols ≤ col.val then ofNat 0
            else options.costLimit / ofNat 2) ∧
      cellsChecked cost options = some (.ok (problem.dimension, problem.matrix.cells)) ∧
      (entryBytes * (cost.dimension * cost.dimension) < wordSize / 2 →
        ∀ sentinel, cost.paddedChecked sentinel = some (cost.padded sentinel).cells) ∧
      (entryBytes * ((cost.rows + cost.cols) * (cost.rows + cost.cols)) < wordSize / 2 →
        ∀ limit, cost.extendedChecked limit = some (cost.extended limit).cells) := by
  obtain ⟨_, cases⟩ := ofCost_cases made
  refine ⟨problem.matrix.size_eq, fun unlimited square => ?_, fun unlimited rectangular => ?_,
    fun limited => ?_, cellsChecked_eq made,
    fun stored sentinel => cost.paddedChecked_eq sentinel stored,
    fun stored limit => cost.extendedChecked_eq limit stored⟩
  · rcases cases with ⟨limited, _⟩ | ⟨_, ⟨_, rfl⟩ | ⟨rectangular, _⟩⟩
    · exact absurd limited unlimited
    · exact ⟨rfl, fun row col =>
        ⟨row.isLt, (col.cast square).isLt, get_asItIs cost square row col⟩⟩
    · exact absurd square rectangular
  · rcases cases with ⟨limited, _⟩ | ⟨_, ⟨square, _⟩ | ⟨_, _, rfl⟩⟩
    · exact absurd limited unlimited
    · exact absurd square rectangular
    · exact ⟨rfl, fun row col =>
        (cost.get_padded _ row col).trans (cost.getD_get? row.val col.val _)⟩
  · rcases cases with ⟨_, _, rfl⟩ | ⟨unlimited, _⟩
    · refine ⟨rfl, fun row col => (cost.get_extended _ row col).trans ?_⟩
      rw [cost.getD_get?]
      by_cases beyond : cost.rows ≤ row.val ∧ cost.cols ≤ col.val
      · rw [if_pos beyond, if_neg (by omega)]
      · rw [if_neg beyond, if_pos (by omega)]
    · exact absurd limited unlimited

/-- A wide matrix extended around a limit: one of its cells beyond the columns, one beyond the rows
and one beyond both. -/
theorem ofCost_places_wide :
    let cost : CostMatrix Float :=
      ⟨2, 3, #[1, 2, 3, 4, 5, 6], by decide, by decide, rfl, by decide, by decide +kernel⟩
    let options : Options Float :=
      { extendCost := true, costLimit := 10, limitStrategy := .augmented }
    let square : SquareMatrix Float 5 := cost.extended 10
    ofCost cost options = .ok (byExtension cost 10) ∧
      cellsChecked cost options = some (.ok (5, square.cells)) ∧
      square.get 1 2 = cost.get 1 2 ∧ square.get 1 3 = options.costLimit / ofNat 2 ∧
        square.get 4 2 = options.costLimit / ofNat 2 ∧ square.get 4 3 = ofNat 0 := by
  intro cost options square
  have limited : options.limitStrategy = .augmented ∧ options.isLimited = true :=
    ⟨rfl, by decide +kernel⟩
  have made : ofCost cost options = .ok (byExtension cost 10) := by
    rw [ofCost, if_neg (by decide), if_pos limited]
    rfl
  obtain ⟨_, _, _, extended, written, _⟩ := ofCost_places made
  obtain ⟨_, cell⟩ := extended limited
  refine ⟨made, written, ?_, ?_, ?_, ?_⟩
  · exact (cell (1 : Fin 5) (2 : Fin 5)).trans (dif_pos (by decide))
  · exact (cell (1 : Fin 5) (3 : Fin 5)).trans ((dif_neg (by decide)).trans (if_neg (by decide)))
  · exact (cell (4 : Fin 5) (2 : Fin 5)).trans ((dif_neg (by decide)).trans (if_neg (by decide)))
  · exact (cell (4 : Fin 5) (3 : Fin 5)).trans ((dif_neg (by decide)).trans (if_pos (by decide)))

end SquareProblem

end LinearAssignment
