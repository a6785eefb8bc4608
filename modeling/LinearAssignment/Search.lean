import LinearAssignment.Matching
import LinearAssignment.Matrix.Square

/-! # The search for a shortest alternating path

From a free row the search settles columns in the order of their distance. The length of an edge is
its reduced cost, what the cost exceeds the two potentials by. A settled column that is matched
leads on to its row at no cost; a free one ends the search. Columns at equal distance are settled
from the lowest.
-/

namespace LinearAssignment

open CostNumber (infinity isFinite ofNat)

/-- The dual variables: a price for every row and every column. -/
structure Potentials (κ : Type) (n : Nat) where
  row : Vector κ n
  col : Vector κ n

/-- What a search knows about every column. -/
structure Search (κ : Type) (n : Nat) where
  /-- The length of the shortest path found so far. -/
  distance : Vector κ n
  /-- The last row on that path. -/
  predecessor : Vector (Option (Fin n)) n
  /-- Whether the column is settled. -/
  visited : Vector Bool n
  /-- The settled columns in their order. -/
  scanned : Array (Fin n)

namespace Search

variable {κ : Type} [CostNumber κ] {n : Nat}

/-- Forget everything a search knows, for a square of some side. -/
def reset {m : Nat} (search : Search κ m) (n : Nat) : Search κ n where
  distance := refill search.distance.toArray n infinity
  predecessor := Vector.replicate n none
  visited := refill search.visited.toArray n false
  scanned := #[]

/-- The length of the path that reaches a column from a row at some distance; summed from the left,
because rounding makes the order matter. -/
def candidate (matrix : SquareMatrix κ n) (potentials : Potentials κ n) (row : Fin n)
    (reached : κ) (col : Fin n) : κ :=
  reached + matrix.get row col - potentials.row.get row - potentials.col.get col

/-- Whether the path over a row improves on what is known of a column that is not settled. -/
def improves (search : Search κ n) (length : κ) (col : Fin n) : Bool :=
  !search.visited.get col && decide (length < search.distance.get col)

/-- Extend paths from a row to all columns that are not settled. -/
def relax (search : Search κ n) (matrix : SquareMatrix κ n) (potentials : Potentials κ n)
    (row : Fin n) (reached : κ) : Search κ n :=
  let lengths := Vector.ofFn (candidate matrix potentials row reached)
  { search with
    distance := Vector.ofFn fun col =>
      if search.improves (lengths.get col) col then lengths.get col else search.distance.get col
    predecessor := Vector.ofFn fun col =>
      if search.improves (lengths.get col) col then some row else search.predecessor.get col }

/-- The nearer of a column and the best before it; only columns that are not settled and at a
distance below infinity count, and of equally near ones the first. -/
def nearer (search : Search κ n) (best : Option (Fin n)) (col : Fin n) : Option (Fin n) :=
  let bound := match best with
    | none => infinity
    | some other => search.distance.get other
  if !search.visited.get col && decide (search.distance.get col < bound) then some col else best

/-- The nearest column that is not settled. -/
def nearest? (search : Search κ n) : Option (Fin n) :=
  (List.finRange n).foldl search.nearer none

/-- Settle a column. -/
def settle (search : Search κ n) (col : Fin n) : Search κ n :=
  { search with
    visited := search.visited.set col true col.isLt
    scanned := search.scanned.push col }

/-- Settle columns, from a row that has been reached at some distance, until one is free. There is
no such column if none is left at a finite distance. A column is settled once, so that the number of
columns not yet settled bounds the search. -/
def explore (matrix : SquareMatrix κ n) (potentials : Potentials κ n) (matching : Matching n) :
    (unsettled : Nat) → Search κ n → (row : Fin n) → (reached : κ) → Search κ n × Option (Fin n)
  | 0, search, _, _ => (search, none)
  | unsettled + 1, search, row, reached =>
    let search := search.relax matrix potentials row reached
    match search.nearest? with
    | none => (search, none)
    | some col =>
      if isFinite (search.distance.get col) then
        let search := search.settle col
        match matching.rowOf.get col with
        | none => (search, some col)
        | some owner =>
          explore matrix potentials matching unsettled search owner (search.distance.get col)
      else (search, none)

/-- The search from a free row: what it learnt, and the free column that it ended at. -/
def fromRow (matrix : SquareMatrix κ n) (potentials : Potentials κ n) (matching : Matching n)
    (scratch : Search κ n) (row : Fin n) : Search κ n × Option (Fin n) :=
  explore matrix potentials matching n (scratch.reset n) row (ofNat 0)

/-- The pairs of a row and a column that lie on the path to a column, from its end back to the row
where the search began. A path has no more pairs than there are settled columns. -/
def pathBack (search : Search κ n) (matching : Matching n) (origin : Fin n) :
    (budget : Nat) → (col : Fin n) → List (Fin n × Fin n)
  | 0, _ => []
  | budget + 1, col =>
    match search.predecessor.get col with
    | none => []
    | some row =>
      (row, col) ::
        if row = origin then []
        else match matching.colOf.get row with
          | none => []
          | some previous => search.pathBack matching origin budget previous

/-- The path to a settled column. -/
def path (search : Search κ n) (matching : Matching n) (origin col : Fin n) :
    List (Fin n × Fin n) :=
  search.pathBack matching origin search.scanned.size col

end Search

end LinearAssignment
