import LinearAssignment.Matrix

/-! # The minimum by enumeration

A reference for small matrices: every way to give each row a column of its own is tried, columns in
ascending order, and the first of the cheapest is kept.
-/

namespace LinearAssignment

/-- The largest number of columns that is enumerated. -/
def maxEnumeratedCols : Nat := 10

/-- The state of an enumeration. -/
structure Enumeration (κ : Type) (cols : Nat) where
  /-- The columns that are taken. -/
  used : Vector Bool cols
  /-- The columns of the rows so far, the last one first. -/
  current : List (Fin cols)
  /-- The smallest total so far. -/
  bestCost : κ
  /-- The columns that attain it, in the order of the rows. -/
  best : List (Fin cols)

namespace Enumeration

variable {κ : Type} [CostNumber κ] {cols : Nat}

/-- Nothing is taken and no total is known. -/
def start : Enumeration κ cols :=
  ⟨Vector.replicate cols false, [], CostNumber.infinity, []⟩

/-- Give a column to the next row. -/
def take (state : Enumeration κ cols) (col : Fin cols) : Enumeration κ cols :=
  { state with used := state.used.set col true col.isLt, current := col :: state.current }

/-- Take a column back from the last row. -/
def release (state : Enumeration κ cols) (col : Fin cols) : Enumeration κ cols :=
  { state with used := state.used.set col false col.isLt, current := state.current.tail }

/-- Keep the current columns if their total is smaller than every one before. -/
def offer (state : Enumeration κ cols) (total : κ) : Enumeration κ cols :=
  if total < state.bestCost then
    { state with bestCost := total, best := state.current.reverse }
  else state

/-- Give columns to some rows in all ways, from the total of the rows before. -/
def descend (cost : CostMatrix κ) :
    List (Fin cost.rows) → κ → Enumeration κ cost.cols → Enumeration κ cost.cols
  | [], total, state => state.offer total
  | row :: rest, total, state =>
    (List.finRange cost.cols).foldl (fun state col =>
      if state.used.get col then state
      else (descend cost rest (total + cost.get row col) (state.take col)).release col)
      state

end Enumeration

/-- The smallest total over all ways to give each row a column of its own, and the first columns
that attain it. -/
def enumerateMinimum {κ : Type} [CostNumber κ] (cost : CostMatrix κ) :
    Except (Refusal κ) (κ × List Nat) :=
  if cost.cols < cost.rows then
    .error (.parameter "rows"
      (toString cost.rows ++ " rows exceed " ++ toString cost.cols ++
        " columns; transpose the matrix"))
  else if maxEnumeratedCols < cost.cols then
    .error (.parameter "cols"
      (toString cost.cols ++ " exceeds the exhaustive limit of " ++ toString maxEnumeratedCols))
  else
    let state := Enumeration.start.descend cost (List.finRange cost.rows) (CostNumber.ofNat 0)
    .ok (state.bestCost, state.best.map Fin.val)

end LinearAssignment
