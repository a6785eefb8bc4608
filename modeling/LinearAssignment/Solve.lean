import LinearAssignment.Assignment

/-! # Solving a cost matrix

The options are checked, the matrix is made square, the square is solved, and the pairs of the
solution that lie inside the matrix and under the limit are retained. A solve works in scratch
memory that its caller may keep for the next one.
-/

namespace LinearAssignment

variable {κ : Type} [CostNumber κ]

/-- What a solve leaves behind: its answer, the scratch memory, and its reports, which it makes also
when it fails. -/
structure SolveRun (κ : Type) where
  result : Except (Refusal κ) (Assignment κ)
  workspace : Workspace κ
  log : List (LogEntry κ)

/-- The reports that follow a square solution. -/
def closingReports (cost : CostMatrix κ) (options : Options κ) (assignment : Assignment κ) :
    List (LogEntry κ) :=
  let failed : List (LogEntry κ) := match assignment.certificate with
    | none => []
    | some certificate =>
      if certificate.isOptimal then []
      else [.certificateFailed certificate.dualityGap certificate.tolerance]
  let metrics := assignment.metrics
  let excluded : List (LogEntry κ) :=
    if 0 < metrics.excludedByLimit then
      [.limitExcluded options.costLimit metrics.excludedByLimit cost.pairBound]
    else []
  failed ++ excluded ++
    [.solved cost.rows cost.cols metrics.dimension assignment.totalCost metrics.augmentations
      metrics.greedyAssignments]

/-- The assignment that a square solution gives for a cost matrix. -/
def SquareProblem.answer (problem : SquareProblem κ) (cost : CostMatrix κ)
    (options : Options κ) (progress : Progress κ problem.dimension) : Assignment κ :=
  let scratch := progress.scratch
  let certificate :=
    if options.verify then
      some (Certificate.compute problem.matrix scratch.matching.colOf scratch.potentials)
    else none
  let extraction := Extraction.ofSquare cost scratch.matching.colOf options.costLimit
  let tally := progress.tally.countExclusions extraction.excluded
  extraction.toAssignment tally.metrics certificate

/-- Solve a square problem in prepared scratch. -/
def SquareProblem.run (problem : SquareProblem κ) (cost : CostMatrix κ) (options : Options κ)
    (capacity : Nat) (scratch : Scratch κ problem.dimension) : SolveRun κ :=
  let (stranded, progress) := solveSquare problem.matrix options.initialization scratch {}
  let kept : Workspace κ := ⟨capacity, problem.dimension, progress.scratch⟩
  let log := problem.log ++ progress.log.toList
  match stranded with
  | some row => ⟨.error (.stranded row), kept, log⟩
  | none =>
    let assignment := problem.answer cost options progress
    ⟨.ok assignment, kept, log ++ closingReports cost options assignment⟩

/-- Solve a cost matrix in some scratch memory. -/
def solveIn (workspace : Workspace κ) (cost : CostMatrix κ) (options : Options κ) :
    SolveRun κ :=
  match options.check with
  | .error problem => ⟨.error problem, workspace, []⟩
  | .ok () =>
    match SquareProblem.ofCost cost options with
    | .error problem => ⟨.error problem, workspace, []⟩
    | .ok problem =>
      match workspace.prepare problem.dimension with
      | .error cause => ⟨.error (.memory cause), workspace, problem.log⟩
      | .ok (capacity, scratch) => problem.run cost options capacity scratch

/-- Solve a cost matrix in scratch memory of its own. -/
def solve (cost : CostMatrix κ) (options : Options κ) : Except (Refusal κ) (Assignment κ) :=
  (solveIn .empty cost options).result

end LinearAssignment
