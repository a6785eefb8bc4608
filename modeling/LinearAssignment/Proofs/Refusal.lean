import LinearAssignment.Proofs.Solve
import LinearAssignment.Proofs.SquareProblem
import LinearAssignment.Proofs.Workspace

/-! # Why a solve is refused

A solve is refused for its options, for the shape of its matrix, for want of room for a square, or
because a row is stranded in the square that it is solved in.
-/

namespace LinearAssignment

variable {κ : Type} [CostNumber κ] {cost : CostMatrix κ} {options : Options κ}
  {refusal : Refusal κ}

/-- The check of options complains of nothing but the limit. -/
theorem Options.exists_parameter_of_check (refused : options.check = .error refusal) :
    ∃ reason, refusal = .parameter "cost_limit" reason := by
  rw [check] at refused
  split_ifs at refused
  · exact ⟨_, (Except.error.inj refused).symm⟩
  · exact ⟨_, (Except.error.inj refused).symm⟩

/-- Whether a square of some side cannot be counted, or not be stored. -/
def Refusal.LacksRoom (refusal : Refusal κ) (side : Nat) : Prop :=
  refusal = .shape side side ∧ wordSize ≤ side * side ∨
    ∃ cause, refusal = .memory cause ∧ reserve 0 (side * side) = .error cause

namespace SquareProblem

omit [CostNumber κ] in
theorem lacksRoom_of_room {side : Nat} (refused : room side = .error refusal) :
    refusal.LacksRoom side := by
  rw [room] at refused
  split_ifs at refused with uncountable
  · exact .inl ⟨(Except.error.inj refused).symm, uncountable⟩
  · cases granted : reserve 0 (side * side) with
    | ok capacity =>
      rw [granted] at refused
      contradiction
    | error cause =>
      rw [granted] at refused
      exact .inr ⟨cause, (Except.error.inj refused).symm, granted⟩

/-- A matrix without a square problem is rectangular and must not be extended, or lacks room for the
square. -/
theorem refusal_of_ofCost (refused : ofCost cost options = .error refusal) :
    (refusal = .rectangular cost.rows cost.cols ∧ cost.rows ≠ cost.cols ∧
        options.extendCost = false) ∨
      ∃ side, refusal.LacksRoom side := by
  rw [ofCost] at refused
  split_ifs at refused with shape limited square
  · simp only [Bool.and_eq_true, Bool.not_eq_true', CostMatrix.isSquare, beq_eq_false_iff_ne]
      at shape
    exact .inl ⟨(Except.error.inj refused).symm, shape.1, shape.2⟩
  · cases space : (room (cost.rows + cost.cols) : Except (Refusal κ) Unit) with
    | error cause =>
      rw [space] at refused
      cases refused
      exact .inr ⟨_, lacksRoom_of_room space⟩
    | ok _ =>
      rw [space] at refused
      contradiction
  · cases space : (room cost.dimension : Except (Refusal κ) Unit) with
    | error cause =>
      rw [space] at refused
      cases refused
      exact .inr ⟨_, lacksRoom_of_room space⟩
    | ok _ =>
      rw [space] at refused
      contradiction

end SquareProblem

/-- A solve whose options are valid is refused as the making of its square is. -/
theorem solve_eq_of_ofCost_error (checked : options.check = .ok ())
    (refused : SquareProblem.ofCost cost options = .error refusal) :
    solve cost options = .error refusal := by
  rw [solve, solveIn, checked, refused]

/-- A solve whose options are valid and whose matrix has a square problem runs in any workspace. -/
theorem solveIn_eq_run_of_ofCost {problem : SquareProblem κ} (workspace : Workspace κ)
    (checked : options.check = .ok ()) (made : SquareProblem.ofCost cost options = .ok problem) :
    solveIn workspace cost options =
      problem.run cost options (max workspace.capacity problem.dimension)
        (Scratch.nothing.cleared problem.dimension) := by
  obtain ⟨_, granted⟩ := SquareProblem.exists_reserve_of_ofCost made
  obtain ⟨_, held⟩ := reserve_eq_ok_iff.mp granted
  refine solveIn_eq_run checked made (reserve_eq_ok_iff.mpr ⟨rfl, held.imp_left fun empty => ?_⟩)
  omega

/-- A solve whose options are valid and whose matrix has a square problem ends as the square
does. -/
theorem solve_eq_of_ofCost {problem : SquareProblem κ} (checked : options.check = .ok ())
    (made : SquareProblem.ofCost cost options = .ok problem) :
    solve cost options =
      match (problem.solution options.initialization).1 with
      | some row => .error (.stranded row)
      | none => .ok (problem.answer cost options (problem.solution options.initialization).2) := by
  rw [solve, solveIn_eq_run_of_ofCost .empty checked made, SquareProblem.run,
    SquareProblem.solution]
  rcases solveSquare problem.matrix options.initialization
    (Scratch.nothing.cleared problem.dimension) {} with ⟨_ | row, progress⟩
  · rfl
  · rfl

/-- All causes for which a solve is refused. -/
theorem refusal_of_solve (refused : solve cost options = .error refusal) :
    (options.check = .error refusal ∧ ∃ reason, refusal = .parameter "cost_limit" reason) ∨
      (refusal = .rectangular cost.rows cost.cols ∧ cost.rows ≠ cost.cols ∧
        options.extendCost = false) ∨
      (∃ side, refusal.LacksRoom side) ∨
      ∃ problem row, options.check = .ok () ∧ SquareProblem.ofCost cost options = .ok problem ∧
        (problem.solution options.initialization).1 = some row ∧ refusal = .stranded row := by
  cases checked : options.check with
  | error invalid =>
    rw [solve, solveIn, checked] at refused
    cases refused
    exact .inl ⟨rfl, Options.exists_parameter_of_check checked⟩
  | ok _ =>
    cases made : SquareProblem.ofCost cost options with
    | error impossible =>
      rw [solve_eq_of_ofCost_error checked made] at refused
      cases refused
      exact .inr ((SquareProblem.refusal_of_ofCost made).imp_right .inl)
    | ok problem =>
      rw [solve_eq_of_ofCost checked made] at refused
      cases ended : (problem.solution options.initialization).1 with
      | none =>
        rw [ended] at refused
        contradiction
      | some row =>
        rw [ended] at refused
        exact .inr (.inr (.inr ⟨problem, row, rfl, rfl, ended, (Except.error.inj refused).symm⟩))

end LinearAssignment
