import LinearAssignment.Proofs.Handle
import LinearAssignment.Solver.Parameters

/-! # Histories of a handle

A handle may have been through any sequence of operations, refused ones and solves that stranded a
row among them. All that such a history can leave in its scratch is capacity that has been granted,
so a solve on the handle is a solve under its present options and in no scratch at all.
-/

namespace LinearAssignment.Solver

/-! ## Operations -/

/-- What can be done with a handle. -/
inductive Operation where
  | solve (cost : CostMatrix Float)
  | solveIntoBuffers (cost : CostMatrix Float) (buffers : Buffers)
  | associate (data : Array Float) (rows cols : Nat) (threshold : Float)
  /-- Set an option by name. -/
  | set (name value : String)
  /-- Put other options in place, unchecked. -/
  | configure (options : Options Float)
  | release
  /-- Replace the handle by a new one with room for squares up to some side. -/
  | withCapacity (options : Options Float) (dimension : Nat)

/-- The handle after an operation, whether that succeeds or not. -/
def perform (solver : Solver Float) : Operation → Solver Float
  | .solve cost => (solver.solve cost).solver
  | .solveIntoBuffers cost buffers => (solver.solveIntoBuffers cost buffers).1.solver
  | .associate data rows cols threshold => (solver.associate data rows cols threshold).solver
  | .set name value => (solver.set name value).2
  | .configure options => { solver with options }
  | .release => solver.release
  | .withCapacity options dimension => (withCapacity options dimension).toOption.getD solver

/-- The handle after some operations, one after the other. -/
def after (solver : Solver Float) (history : List Operation) : Solver Float :=
  history.foldl perform solver

variable {solver : Solver Float}

/-- Setting an option by name touches nothing else. -/
theorem workspace_set (solver : Solver Float) (name value : String) :
    (solver.set name value).2.workspace = solver.workspace := by
  rw [set]
  cases ParameterName.ofText? name with
  | none => rfl
  | some parameter =>
    dsimp only
    cases solver.options.withParameter parameter value with
    | error refusal => rfl
    | ok options => rfl

/-- Whatever is done with a handle, its workspace goes on to fit. -/
theorem fits_perform (fits : solver.workspace.Fits) (operation : Operation) :
    (solver.perform operation).workspace.Fits := by
  cases operation with
  | solve cost => exact fits_solve fits cost
  | solveIntoBuffers cost buffers =>
    rw [perform]
    rcases solver.solveIntoBuffers_cases cost buffers with ⟨_, _, same⟩ | ⟨_, solved⟩
    · rwa [same]
    · rw [solved]
      exact fits_solve fits cost
  | associate data rows cols threshold =>
    rw [perform]
    rcases solver.associate_cases data rows cols threshold with
      ⟨_, same⟩ | ⟨_, ⟨_, _, same⟩ | ⟨cost, _, solved⟩⟩
    · rwa [same]
    · rwa [same]
    · rw [solved]
      exact fits_solveUnder fits _ cost
  | set name value =>
    rw [perform, workspace_set]
    exact fits
  | configure options => exact fits
  | release => exact Workspace.fits_empty
  | withCapacity options dimension =>
    rw [perform, withCapacity]
    cases granted : Workspace.withCapacity dimension with
    | error cause => exact fits
    | ok workspace => exact Workspace.fits_of_withCapacity granted

theorem fits_after (fits : solver.workspace.Fits) (history : List Operation) :
    (solver.after history).workspace.Fits := by
  induction history generalizing solver with
  | nil => exact fits
  | cons operation rest ih => exact ih (fits_perform fits operation)

/-- A handle answers and reports, after whatever history, as a solve under its present options
without any history does. -/
theorem solve_after (options : Options Float) (history : List Operation)
    (cost : CostMatrix Float) :
    let solver := (ofOptions options).after history
    (solver.solve cost).result = LinearAssignment.solve cost solver.options ∧
      (solver.solve cost).log = (solveIn .empty cost solver.options).log := by
  intro solver
  apply solve_of_fits
  exact fits_after Workspace.fits_empty history

end LinearAssignment.Solver
