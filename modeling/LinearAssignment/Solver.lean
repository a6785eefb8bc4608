import LinearAssignment.Solve

/-! # Solver handles

A handle keeps options and scratch memory from one call to the next. Its answers do not depend on
what it solved before; only its capacity and the figures of its last successful solve do.
-/

namespace LinearAssignment

variable {κ : Type} [CostNumber κ]

/-- A solver that can be used again. -/
structure Solver (κ : Type) [CostNumber κ] where
  options : Options κ := {}
  workspace : Workspace κ := .empty
  /-- The figures of the last solve that succeeded. -/
  lastMetrics : Option Metrics := none

/-- What a call on a handle leaves behind: its answer, the handle, and its reports. -/
structure Call (κ α : Type) [CostNumber κ] where
  result : Except (Refusal κ) α
  solver : Solver κ
  log : List (LogEntry κ)

namespace Solver

/-- A handle with some options. -/
def ofOptions (options : Options κ) : Solver κ := { options }

/-- A handle with room for squares up to some side. -/
def withCapacity (options : Options κ) (dimension : Nat) :
    Except (Refusal κ) (Solver κ) :=
  match Workspace.withCapacity dimension with
  | .ok workspace => .ok { options, workspace }
  | .error cause => .error (.memory cause)

/-- The side of the largest square that there is room for. -/
def capacity (solver : Solver κ) : Nat := solver.workspace.capacity

/-- Give the scratch memory back and forget the last solve. -/
def release (solver : Solver κ) : Solver κ :=
  { solver with workspace := .empty, lastMetrics := none }

/-- Solve a cost matrix under the options of the handle. -/
def solve (solver : Solver κ) (cost : CostMatrix κ) : Call κ (Assignment κ) :=
  let run := solveIn solver.workspace cost solver.options
  let lastMetrics := match run.result with
    | .ok assignment => some assignment.metrics
    | .error _ => solver.lastMetrics
  ⟨run.result, { solver with workspace := run.workspace, lastMetrics }, run.log⟩

/-- Solve a cost matrix into output buffers. Their lengths are checked before anything else, and
they keep their contents unless the solve succeeds. -/
def solveIntoBuffers (solver : Solver κ) (cost : CostMatrix κ) (buffers : Buffers) :
    Call κ κ × Buffers :=
  match buffers.check cost.rows cost.cols with
  | .error problem => (⟨.error problem, solver, []⟩, buffers)
  | .ok () =>
    let call := solver.solve cost
    match call.result with
    | .error problem => (⟨.error problem, call.solver, call.log⟩, buffers)
    | .ok assignment =>
      let (total, written) := assignment.writeInto buffers
      (⟨total, call.solver, call.log⟩, written)

end Solver

end LinearAssignment
