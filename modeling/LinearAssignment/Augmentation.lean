import LinearAssignment.Log
import LinearAssignment.Metrics
import LinearAssignment.Workspace

/-! # Augmenting a matching

One augmentation matches one free row: it searches a shortest alternating path, shifts the
potentials by what each settled column lies below the end of the path, and exchanges matched and
unmatched pairs along the path. A search that meets no free column changes neither potentials nor
matching.
-/

namespace LinearAssignment

variable {κ : Type} [CostNumber κ] {n : Nat}

/-- How much nearer than the end of the path a settled column lies. -/
def Search.slack (search : Search κ n) (sink col : Fin n) : κ :=
  search.distance.get sink - search.distance.get col

/-- Whether the potential of a column is shifted: it is settled and not the end of the path. -/
def Search.shifts (search : Search κ n) (sink col : Fin n) : Bool :=
  search.visited.get col && decide (col ≠ sink)

/-- The potentials after a search from `origin` has ended at `sink`. The origin rises by the length
of the path; every settled column but the last falls by its slack, and its row rises by as much. -/
def Potentials.shifted (potentials : Potentials κ n) (search : Search κ n) (matching : Matching n)
    (origin sink : Fin n) : Potentials κ n where
  row := Vector.ofFn fun row =>
    let price := potentials.row.get row
    if row = origin then price + search.distance.get sink
    else match matching.colOf.get row with
      | some col => if search.shifts sink col then price + search.slack sink col else price
      | none => price
  col := Vector.ofFn fun col =>
    let price := potentials.col.get col
    if search.shifts sink col then price - search.slack sink col else price

/-- A solve under way: its scratch, its figures and its reports so far. -/
structure Progress (κ : Type) (n : Nat) where
  scratch : Scratch κ n
  tally : Tally
  log : Array (LogEntry κ)

namespace Progress

/-- Match one free row. The flag says whether a path was found. -/
def augment (matrix : SquareMatrix κ n) (row : Fin n) (progress : Progress κ n) :
    Bool × Progress κ n :=
  let ⟨potentials, old, matching⟩ := progress.scratch
  let (search, sink) := Search.fromRow matrix potentials matching old row
  match sink with
  | none => (false, { progress with scratch := ⟨potentials, search, matching⟩ })
  | some sink =>
    let flipped := matching.assignAll (search.path matching row sink)
    let column := (flipped.colOf.get row).getD sink
    let tally := progress.tally.countScans search.scanned.size
    (true,
      { scratch := ⟨potentials.shifted search matching row sink, search, flipped⟩
        tally := tally.countAugmentation
        log := progress.log.push
          (.augmented row column search.scanned.size (search.distance.get sink)) })

/-- Match each of some rows that is free, in their order, up to the first for which there is no
path. That row is returned. -/
def augmentAll (matrix : SquareMatrix κ n) :
    List (Fin n) → Progress κ n → Option (Fin n) × Progress κ n
  | [], progress => (none, progress)
  | row :: rest, progress =>
    if progress.scratch.matching.isFreeRow row then
      match progress.augment matrix row with
      | (true, next) => augmentAll matrix rest next
      | (false, next) => (some row, next)
    else augmentAll matrix rest progress

end Progress

end LinearAssignment
