import LinearAssignment.Association
import LinearAssignment.Proofs.Matrix
import LinearAssignment.Proofs.Workspace

/-! # Calls on a handle

What each call on a handle does, in every case that it distinguishes: which requests are refused
before the solver is touched, and which run a solve. A handle whose workspace fits solves as no
handle at all does, and goes on to fit.
-/

namespace LinearAssignment.Solver

variable {κ : Type} [CostNumber κ] {solver : Solver κ} {cost : CostMatrix κ}

/-! ## Solving -/

/-- A solve on a handle whose workspace fits is a solve on its own. -/
theorem solve_of_fits (fits : solver.workspace.Fits) (cost : CostMatrix κ) :
    (solver.solve cost).result = LinearAssignment.solve cost solver.options ∧
      (solver.solve cost).log = (solveIn .empty cost solver.options).log :=
  fits.solveIn_eq cost solver.options

theorem fits_solve (fits : solver.workspace.Fits) (cost : CostMatrix κ) :
    (solver.solve cost).solver.workspace.Fits :=
  fits.solveIn cost solver.options

/-- A solve under other options uses the scratch of the handle. -/
theorem fits_solveUnder (fits : solver.workspace.Fits) (options : Options κ) (cost : CostMatrix κ) :
    (solver.solveUnder options cost).solver.workspace.Fits :=
  fits.solveIn cost options

/-! ## Solving into buffers -/

section

variable {buffers : Buffers}

/-- Buffers of a wrong length are refused before anything else is done. -/
theorem solveIntoBuffers_of_refused {refusal : Refusal κ}
    (refused : buffers.check cost.rows cost.cols = .error refusal) :
    solver.solveIntoBuffers cost buffers = (⟨.error refusal, solver, []⟩, buffers) := by
  rw [solveIntoBuffers, refused]

/-- Into buffers of the right lengths the answer of a solve is written, if it has one. -/
theorem solveIntoBuffers_of_passed
    (passed : buffers.check cost.rows cost.cols = (.ok () : Except (Refusal κ) Unit)) :
    solver.solveIntoBuffers cost buffers =
      match (solver.solve cost).result with
      | .error refusal =>
        (⟨.error refusal, (solver.solve cost).solver, (solver.solve cost).log⟩, buffers)
      | .ok answer =>
        (⟨(answer.writeInto buffers).1, (solver.solve cost).solver, (solver.solve cost).log⟩,
          (answer.writeInto buffers).2) := by
  cases solved : (solver.solve cost).result with
  | error refusal => simp only [solveIntoBuffers, passed, solved]
  | ok answer => simp only [solveIntoBuffers, passed, solved]

/-- Either the buffers are refused and the handle is left alone, or it solves the matrix. -/
theorem solveIntoBuffers_cases (solver : Solver κ) (cost : CostMatrix κ) (buffers : Buffers) :
    (∃ refusal : Refusal κ, buffers.check cost.rows cost.cols = .error refusal ∧
      (solver.solveIntoBuffers cost buffers).1.solver = solver) ∨
    (buffers.check cost.rows cost.cols = (.ok () : Except (Refusal κ) Unit) ∧
      (solver.solveIntoBuffers cost buffers).1.solver = (solver.solve cost).solver) := by
  cases checked : (buffers.check cost.rows cost.cols : Except (Refusal κ) Unit) with
  | error refusal =>
    refine .inl ⟨refusal, rfl, ?_⟩
    rw [solveIntoBuffers_of_refused checked]
  | ok _ =>
    refine .inr ⟨rfl, ?_⟩
    rw [solveIntoBuffers_of_passed checked]
    cases (solver.solve cost).result with
    | error refusal => rfl
    | ok answer => rfl

end

/-! ## Associating a frame -/

section

variable {data : Array κ} {rows cols : Nat} {threshold : κ}

/-- A frame with an empty side is answered without the solver, or refused for its data. -/
theorem associate_of_oneSided (oneSided : rows = 0 ∨ cols = 0) :
    solver.associate data rows cols threshold =
      ⟨if data.isEmpty then .ok (.allOpen rows cols) else .error (.dataLength 0 data.size),
        solver, []⟩ := by
  rw [associate, if_pos oneSided]
  split_ifs
  · rfl
  · rfl

/-- A frame whose costs make no matrix is refused without the solver. -/
theorem associate_of_unread {refusal : Refusal κ} (sided : ¬ (rows = 0 ∨ cols = 0))
    (unread : CostMatrix.ofData data rows cols = .error refusal) :
    solver.associate data rows cols threshold = ⟨.error refusal, solver, []⟩ := by
  rw [associate, if_neg sided, unread]

/-- A frame whose costs make a matrix gets the answer of a solve with the limit at the threshold. -/
theorem associate_of_read (read : CostMatrix.ofData data rows cols = .ok cost) :
    let call := solver.solveUnder (solver.options.gated threshold) cost
    solver.associate data rows cols threshold =
      ⟨call.result.map .ofAssignment, call.solver, call.log⟩ := by
  have sided : ¬ (rows = 0 ∨ cols = 0) := by
    obtain ⟨sameRows, sameCols, _⟩ := CostMatrix.ofData_eq_ok read
    have someRow := cost.rows_pos
    have someCol := cost.cols_pos
    omega
  rw [associate, if_neg sided, read]

/-- Either the frame has an empty side or bad costs and the handle is left alone, or it solves their
matrix with the limit at the threshold. -/
theorem associate_cases (solver : Solver κ) (data : Array κ) (rows cols : Nat) (threshold : κ) :
    ((rows = 0 ∨ cols = 0) ∧ (solver.associate data rows cols threshold).solver = solver) ∨
    (¬ (rows = 0 ∨ cols = 0) ∧
      ((∃ refusal, CostMatrix.ofData data rows cols = .error refusal ∧
        (solver.associate data rows cols threshold).solver = solver) ∨
      ∃ cost, CostMatrix.ofData data rows cols = .ok cost ∧
        (solver.associate data rows cols threshold).solver =
          (solver.solveUnder (solver.options.gated threshold) cost).solver)) := by
  by_cases oneSided : rows = 0 ∨ cols = 0
  · exact .inl ⟨oneSided, by rw [associate_of_oneSided oneSided]⟩
  · refine .inr ⟨oneSided, ?_⟩
    cases read : CostMatrix.ofData data rows cols with
    | error refusal => exact .inl ⟨refusal, rfl, by rw [associate_of_unread oneSided read]⟩
    | ok cost => exact .inr ⟨cost, rfl, by rw [associate_of_read read]⟩

/-- On a handle whose workspace fits, a frame is answered as its matrix is without any handle. -/
theorem result_associate_of_read (fits : solver.workspace.Fits)
    (read : CostMatrix.ofData data rows cols = .ok cost) :
    (solver.associate data rows cols threshold).result =
      (LinearAssignment.solve cost (solver.options.gated threshold)).map .ofAssignment := by
  rw [associate_of_read read, ← (fits.solveIn_eq cost _).1]
  rfl

/-- Whatever becomes of a frame, the options of the handle are what they were. -/
theorem options_associate (solver : Solver κ) (data : Array κ) (rows cols : Nat) (threshold : κ) :
    (solver.associate data rows cols threshold).solver.options = solver.options := by
  rcases solver.associate_cases data rows cols threshold with
    ⟨_, same⟩ | ⟨_, ⟨_, _, same⟩ | ⟨cost, _, solved⟩⟩
  · rw [same]
  · rw [same]
  · rw [solved, solveUnder]

end

end LinearAssignment.Solver
