import LinearAssignment.Refusal

/-! # What a solve reports on its way

Reports are values; their level and their wording are functions of them.
-/

namespace LinearAssignment

/-- How urgent a report is. -/
inductive LogLevel where
  | trace
  | debug
  | warn
deriving DecidableEq, Repr

/-- The name of a level. -/
def LogLevel.name : LogLevel → String
  | trace => "TRACE"
  | debug => "DEBUG"
  | warn => "WARN"

/-- One report of a solve. -/
inductive LogEntry (κ : Type) where
  /-- A rectangular matrix was filled up to a square with one sentinel cost. -/
  | padded (rows cols dimension : Nat) (sentinel : κ)
  /-- A matrix was extended so that leaving a row and a column open costs the limit. -/
  | extended (rows cols dimension : Nat) (limit : κ)
  /-- A free row was matched after a search over some columns; the slack is its path's length. -/
  | augmented (row column scanned : Nat) (slack : κ)
  /-- The certificate of the answer does not show it to be optimal. -/
  | certificateFailed (gap tolerance : κ)
  /-- The cost limit dropped some of the pairs that a matching can have. -/
  | limitExcluded (limit : κ) (excluded pairs : Nat)
  /-- A matrix was solved inside a square of some dimension. -/
  | solved (rows cols dimension : Nat) (total : κ) (augmentations greedy : Nat)

namespace LogEntry

/-- The level of a report. -/
def level {κ : Type} : LogEntry κ → LogLevel
  | padded .. => .trace
  | extended .. => .trace
  | augmented .. => .trace
  | certificateFailed .. => .warn
  | limitExcluded .. => .debug
  | solved .. => .debug

/-- The report in words. How long the solve took is not among them. -/
def message : LogEntry Float → String
  | padded rows cols dimension sentinel =>
    "padded " ++ sizeText rows cols ++ " cost matrix to " ++ sizeText dimension dimension ++
      " with sentinel " ++ costText sentinel
  | extended rows cols dimension limit =>
    "extended " ++ sizeText rows cols ++ " cost matrix to " ++ sizeText dimension dimension ++
      " around cost limit " ++ costText limit
  | augmented row column scanned slack =>
    s!"augmented row {row} to column {column} after scanning {scanned} columns (slack " ++
      costText slack ++ ")"
  | certificateFailed gap tolerance =>
    "optimality certificate failed: gap " ++ costText gap ++ " (tolerance " ++
      costText tolerance ++ ")"
  | limitExcluded limit excluded pairs =>
    "cost limit " ++ costText limit ++ s!" excluded {excluded} of {pairs} pairs"
  | solved rows cols dimension total augmentations greedy =>
    "solved " ++ sizeText rows cols ++ " assignment as " ++ sizeText dimension dimension ++
      ": total " ++ costText total ++ s!" after {augmentations} augmentations ({greedy} greedy)"

end LogEntry

end LinearAssignment
