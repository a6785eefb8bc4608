import LinearAssignment.Solver

/-! # Associating the two sides of a frame

One frame of a tracker matches tracks with detections where their cost does not exceed a threshold,
and lists what stays open on both sides. A frame in which one side is empty is answered without a
solve.
-/

namespace LinearAssignment

variable {κ : Type} [CostNumber κ]

/-- The result of associating a frame. -/
structure Association where
  /-- The accepted pairs of a row and a column, by ascending row. -/
  pairs : List (Nat × Nat) := []
  unmatchedRows : List Nat := []
  unmatchedCols : List Nat := []
deriving DecidableEq, Repr

namespace Association

/-- Everything stays open. -/
def allOpen (rows cols : Nat) : Association :=
  { unmatchedRows := List.range rows, unmatchedCols := List.range cols }

/-- The pairs and open indices of an assignment. -/
def ofAssignment (assignment : Assignment κ) : Association :=
  { pairs := assignment.pairs
    unmatchedRows := assignment.unmatchedRows
    unmatchedCols := assignment.unmatchedCols }

end Association

/-- Options with extension on and the limit at a threshold. -/
def Options.gated (options : Options κ) (threshold : κ) : Options κ :=
  { options with extendCost := true, costLimit := threshold }

/-- Solve on the scratch of a handle under other options; its own are back in place afterwards. -/
def Solver.solveUnder (solver : Solver κ) (options : Options κ) (cost : CostMatrix κ) :
    Call κ (Assignment κ) :=
  let call := { solver with options }.solve cost
  { call with solver := { call.solver with options := solver.options } }

/-- Associate rows with columns on the scratch of a handle, refusing pairs above a threshold. -/
def Solver.associate (solver : Solver κ) (data : Array κ) (rows cols : Nat) (threshold : κ) :
    Call κ Association :=
  if rows = 0 ∨ cols = 0 then
    if data.isEmpty then ⟨.ok (.allOpen rows cols), solver, []⟩
    else ⟨.error (.dataLength 0 data.size), solver, []⟩
  else
    match CostMatrix.ofData data rows cols with
    | .error problem => ⟨.error problem, solver, []⟩
    | .ok cost =>
      let call := solver.solveUnder (solver.options.gated threshold) cost
      ⟨call.result.map .ofAssignment, call.solver, call.log⟩

/-- Associate rows with columns on a fresh handle. -/
def Association.ofCosts (data : Array κ) (rows cols : Nat) (threshold : κ) : Call κ Association :=
  ({} : Solver κ).associate data rows cols threshold

end LinearAssignment
