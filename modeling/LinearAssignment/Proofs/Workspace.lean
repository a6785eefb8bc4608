import LinearAssignment.Proofs.Capacity
import LinearAssignment.Proofs.Search.Round
import LinearAssignment.Solve

/-! # Kept scratch leaves no trace

A solve clears all scratch that it works on, so nothing of an earlier solve reaches it but the
capacity. More capacity lets no solve through that a fresh one would refuse, because kept capacity
has been granted before: it fits into the address space. So the answer and the reports of a solve
are those of a solve in no scratch at all.
-/

namespace LinearAssignment

variable {κ : Type} {workspace : Workspace κ}

/-- The capacity of a workspace is one that can be granted. -/
def Workspace.Fits (workspace : Workspace κ) : Prop :=
  entryBytes * workspace.capacity ≤ addressableBytes

theorem Workspace.fits_empty : (Workspace.empty : Workspace κ).Fits := Nat.zero_le _

/-- What is granted fits, if what was there before did. -/
theorem Workspace.Fits.of_reserve (fits : workspace.Fits) {entries granted : Nat}
    (room : reserve workspace.capacity entries = .ok granted) :
    entryBytes * granted ≤ addressableBytes := by
  obtain ⟨rfl, held | bytes⟩ := reserve_eq_ok_iff.mp room
  · rwa [max_eq_left held]
  · rcases le_total workspace.capacity entries with grown | held
    · rwa [max_eq_right grown]
    · rwa [max_eq_left held]

theorem Workspace.fits_of_withCapacity {dimension : Nat}
    (granted : Workspace.withCapacity dimension = .ok workspace) : workspace.Fits := by
  rw [Workspace.withCapacity] at granted
  cases room : reserve 0 dimension with
  | error cause =>
    rw [room] at granted
    contradiction
  | ok capacity =>
    rw [room] at granted
    cases granted
    have fits : (Workspace.empty : Workspace κ).Fits := Workspace.fits_empty
    exact fits.of_reserve room

variable [CostNumber κ] {cost : CostMatrix κ} {options : Options κ}

/-! ## Prepared scratch -/

/-- Cleared scratch is the same whatever was left in it, and of whatever side it was. -/
theorem Scratch.cleared_eq {m : Nat} (scratch : Scratch κ m) (n : Nat) :
    scratch.cleared n = Scratch.nothing.cleared n := by
  simp only [cleared, refill_eq, Search.reset_eq]

namespace Workspace

/-- Where there is room, the scratch is cleared. -/
theorem prepare_eq (workspace : Workspace κ) (n : Nat) :
    workspace.prepare n =
      (reserve workspace.capacity n).map fun capacity => (capacity, Scratch.nothing.cleared n) := by
  rw [prepare, workspace.scratch.cleared_eq]
  cases reserve workspace.capacity n with
  | error cause => rfl
  | ok capacity => rfl

/-- A workspace that fits is prepared, or refused, as an empty one is. -/
theorem Fits.prepare_eq (fits : workspace.Fits) (n : Nat) :
    workspace.prepare n =
      ((empty : Workspace κ).prepare n).map fun prepared =>
        (max workspace.capacity prepared.1, prepared.2) := by
  have fresh : (empty : Workspace κ).capacity = 0 := rfl
  rw [workspace.prepare_eq, empty.prepare_eq, reserve_of_fits fits, fresh]
  cases reserve 0 n with
  | error cause => rfl
  | ok capacity => rfl

end Workspace

/-! ## A solve in kept scratch -/

namespace SquareProblem

variable {problem : SquareProblem κ}

theorem run_workspace_capacity (capacity : Nat) (scratch : Scratch κ problem.dimension) :
    (problem.run cost options capacity scratch).workspace.capacity = capacity := by
  rw [run]
  rcases solveSquare problem.matrix options.initialization scratch {} with ⟨_ | row, progress⟩
  · rfl
  · rfl

/-- Capacity beyond what is needed changes neither the answer nor the reports. -/
theorem run_capacity (capacity other : Nat) (scratch : Scratch κ problem.dimension) :
    (problem.run cost options capacity scratch).result =
        (problem.run cost options other scratch).result ∧
      (problem.run cost options capacity scratch).log =
        (problem.run cost options other scratch).log := by
  rw [run, run]
  rcases solveSquare problem.matrix options.initialization scratch {} with ⟨_ | row, progress⟩
  · exact ⟨rfl, rfl⟩
  · exact ⟨rfl, rfl⟩

end SquareProblem

/-- A solve for which everything is ready is the run of its square problem on cleared scratch. -/
theorem solveIn_eq_run {problem : SquareProblem κ} {capacity : Nat}
    (checked : options.check = .ok ()) (made : SquareProblem.ofCost cost options = .ok problem)
    (room : reserve workspace.capacity problem.dimension = .ok capacity) :
    solveIn workspace cost options =
      problem.run cost options capacity (Scratch.nothing.cleared problem.dimension) := by
  rw [solveIn, checked, made]
  dsimp only
  rw [workspace.prepare_eq, room]
  rfl

/-- Either a solve is refused before it begins and leaves the workspace alone, or it runs. -/
theorem solveIn_cases (workspace : Workspace κ) (cost : CostMatrix κ) (options : Options κ) :
    ((∃ refusal, (solveIn workspace cost options).result = .error refusal) ∧
      (solveIn workspace cost options).workspace = workspace) ∨
    ∃ problem capacity, options.check = .ok () ∧
      SquareProblem.ofCost cost options = .ok problem ∧
      reserve workspace.capacity problem.dimension = .ok capacity ∧
      solveIn workspace cost options =
        problem.run cost options capacity (Scratch.nothing.cleared problem.dimension) := by
  cases checked : options.check with
  | error refusal =>
    rw [solveIn, checked]
    exact .inl ⟨⟨refusal, rfl⟩, rfl⟩
  | ok _ =>
    cases made : SquareProblem.ofCost cost options with
    | error refusal =>
      rw [solveIn, checked, made]
      exact .inl ⟨⟨refusal, rfl⟩, rfl⟩
    | ok problem =>
      cases room : reserve workspace.capacity problem.dimension with
      | error cause =>
        rw [solveIn, checked, made]
        dsimp only
        rw [workspace.prepare_eq, room]
        exact .inl ⟨⟨.memory cause, rfl⟩, rfl⟩
      | ok capacity =>
        exact .inr ⟨problem, capacity, rfl, rfl, room, solveIn_eq_run checked made room⟩

namespace Workspace

/-- A solve in a workspace that fits answers and reports as one in no workspace at all. -/
theorem Fits.solveIn_eq (fits : workspace.Fits) (cost : CostMatrix κ) (options : Options κ) :
    (solveIn workspace cost options).result = solve cost options ∧
      (solveIn workspace cost options).log = (solveIn .empty cost options).log := by
  rw [solve, solveIn, solveIn]
  cases options.check with
  | error refusal => exact ⟨rfl, rfl⟩
  | ok _ =>
    cases SquareProblem.ofCost cost options with
    | error refusal => exact ⟨rfl, rfl⟩
    | ok problem =>
      dsimp only
      rw [fits.prepare_eq]
      cases (empty : Workspace κ).prepare problem.dimension with
      | error cause => exact ⟨rfl, rfl⟩
      | ok prepared => exact SquareProblem.run_capacity _ prepared.1 prepared.2

/-- A solve leaves a workspace that fits behind. -/
theorem Fits.solveIn (fits : workspace.Fits) (cost : CostMatrix κ) (options : Options κ) :
    (solveIn workspace cost options).workspace.Fits := by
  rcases solveIn_cases workspace cost options with ⟨_, same⟩ | ⟨problem, capacity, _, _, room, ran⟩
  · rwa [same]
  · rw [Fits, ran, SquareProblem.run_workspace_capacity]
    exact fits.of_reserve room

end Workspace

end LinearAssignment
