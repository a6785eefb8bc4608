import LinearAssignment.Batch
import LinearAssignment.Proofs.History
import Mathlib.Data.List.Basic
import Mathlib.Data.List.FinRange

/-! # Batches do not depend on their schedule

A worker's handle carries whatever the matrices before have left in it, and that never shows. So
every answer of a batch is that of its matrix alone, however the matrices are divided and in
whatever order they are taken.
-/

namespace LinearAssignment

variable {κ : Type} [CostNumber κ]

/-- A handle that solves matrices one after the other gives each the answer it has alone. -/
theorem Solver.solveEach_of_fits {solver : Solver κ} (fits : solver.workspace.Fits)
    (matrices : List (CostMatrix κ)) :
    solver.solveEach matrices =
      matrices.map fun cost => LinearAssignment.solve cost solver.options := by
  induction matrices generalizing solver with
  | nil => rfl
  | cons cost rest ih =>
    have kept : (solver.solve cost).solver.options = solver.options := rfl
    rw [solveEach, List.map_cons, (solver.solve_of_fits fits cost).1,
      ih (fits_solve fits cost), kept]

namespace Batch

variable (options : Options κ) (matrices : List (CostMatrix κ))

/-- A worker pairs every matrix of its share with the answer that it has alone. -/
theorem solveShare_eq (share : List (Fin matrices.length)) :
    solveShare options matrices share =
      share.map fun index => (index, LinearAssignment.solve (matrices.get index) options) := by
  have fits : (Solver.ofOptions options).workspace.Fits := Workspace.fits_empty
  rw [solveShare, Solver.solveEach_of_fits fits, List.map_map]
  exact List.map_prod_left_eq_zip.symm

/-- The answers of all workers hold that of every matrix. -/
theorem lookup_solveShare (schedule : Schedule matrices.length) (index : Fin matrices.length) :
    (schedule.shares.flatMap (solveShare options matrices)).lookup index =
      some (LinearAssignment.solve (matrices.get index) options) := by
  have answers : schedule.shares.flatMap (solveShare options matrices) =
      schedule.shares.flatten.map fun index =>
        (index, LinearAssignment.solve (matrices.get index) options) := by
    rw [List.flatMap_def, List.map_flatten]
    exact congrArg List.flatten (List.map_congr_left fun share _ =>
      solveShare_eq options matrices share)
  rw [answers]
  apply List.lookup_graph
  exact List.mem_flatten.mpr (schedule.covers index)

/-- Under every schedule the answers are those of the matrices alone, in their order. -/
theorem solveUnder_eq_map (schedule : Schedule matrices.length) :
    solveUnder options matrices schedule = matrices.map (LinearAssignment.solve · options) := by
  rw [solveUnder]
  simp only [lookup_solveShare]
  rw [List.filterMap_eq_map']
  conv_rhs => rw [← List.map_get_finRange matrices, List.map_map]
  rfl

/-- Under every schedule a batch answers each matrix as a solve of it alone does, and if one of
them is replaced, whatever then becomes of it and however the matrices are divided this time, its
answer is the only one to change. -/
theorem solveUnder_pointwise (schedule : Schedule matrices.length) (position : Nat)
    (replacement : CostMatrix κ) (other : Schedule (matrices.set position replacement).length) :
    solveUnder options matrices schedule = matrices.map (LinearAssignment.solve · options) ∧
      solveUnder options (matrices.set position replacement) other =
        (solveUnder options matrices schedule).set position
          (LinearAssignment.solve replacement options) := by
  constructor
  · exact solveUnder_eq_map options matrices schedule
  · rw [solveUnder_eq_map, solveUnder_eq_map, List.map_set]

end Batch

end LinearAssignment
