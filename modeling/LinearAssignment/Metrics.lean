import LinearAssignment.Capacity
import LinearAssignment.Duration

/-! # Figures of a solve

A tally collects the figures while a solve runs. It reads no clock by itself: the readings are given
to it. A solve gives it none, so the time of an answer is zero until it is set.
-/

namespace LinearAssignment

/-- What a solve had to do. -/
structure Metrics where
  /-- The side of the square problem that was solved. -/
  dimension : Nat := 0
  /-- Rows matched by row reduction, before any augmentation. -/
  greedyAssignments : Nat := 0
  /-- Augmenting paths found. -/
  augmentations : Nat := 0
  /-- Columns settled by the searches, summed over all paths. -/
  columnsScanned : Nat := 0
  /-- Pairs dropped by the cost limit. -/
  excludedByLimit : Nat := 0
  executionTime : Duration := .zero
deriving DecidableEq, Repr

/-- Collects the figures of one solve. -/
structure Tally where
  metrics : Metrics := {}
  /-- The clock reading of a start that has not been stopped. -/
  started : Option Duration := none
deriving DecidableEq, Repr

namespace Tally

/-- Start the clock at a reading. -/
def start (tally : Tally) (now : Duration) : Tally :=
  { tally with started := some now }

/-- Stop the clock at a reading; without a start nothing happens. -/
def stop (tally : Tally) (now : Duration) : Tally :=
  match tally.started with
  | none => tally
  | some reading =>
    { metrics := { tally.metrics with executionTime := .between reading now }, started := none }

/-- Set the dimension. -/
def setDimension (tally : Tally) (dimension : Nat) : Tally :=
  { tally with metrics.dimension := dimension }

/-- Count one row matched by row reduction. -/
def countGreedy (tally : Tally) : Tally :=
  { tally with metrics.greedyAssignments := tally.metrics.greedyAssignments + 1 }

/-- Count one augmenting path. -/
def countAugmentation (tally : Tally) : Tally :=
  { tally with metrics.augmentations := tally.metrics.augmentations + 1 }

/-- Count settled columns. -/
def countScans (tally : Tally) (columns : Nat) : Tally :=
  { tally with metrics.columnsScanned := tally.metrics.columnsScanned + columns }

/-- Count dropped pairs. The number is the caller's, so the count wraps where a word does. -/
def countExclusions (tally : Tally) (excluded : Nat) : Tally :=
  { tally with
    metrics.excludedByLimit := (tally.metrics.excludedByLimit + excluded) % wordSize }

end Tally

end LinearAssignment
