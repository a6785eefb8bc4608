import LinearAssignment.Proofs.Assignment
import LinearAssignment.Proofs.SquareSolution
import LinearAssignment.Cost.Binary64
import LinearAssignment.Solve

/-! # Every answer of a solve is sound

`solve_eq_ok_iff` opens a solve once and for all: the options are valid, the matrix has a square
problem, there is room for it, and no row is stranded. Whatever rounding and overflow do to the
distances and potentials on the way, the answer is a sound assignment.
-/

namespace LinearAssignment

variable {κ : Type} [CostNumber κ] {cost : CostMatrix κ} {options : Options κ}
  {answer : Assignment κ}

/-- The state in which the solve of a square problem on fresh scratch ends. -/
def SquareProblem.solution (problem : SquareProblem κ) (initialization : DualStart) :
    Option (Fin problem.dimension) × Progress κ problem.dimension :=
  solveSquare problem.matrix initialization (Scratch.nothing.cleared problem.dimension) {}

/-- When a solve gives an answer, and which. -/
theorem solve_eq_ok_iff : solve cost options = .ok answer ↔
    options.check = .ok () ∧ ∃ problem, SquareProblem.ofCost cost options = .ok problem ∧
      (∃ capacity, reserve 0 problem.dimension = .ok capacity) ∧
      (problem.solution options.initialization).1 = none ∧
      answer = problem.answer cost options (problem.solution options.initialization).2 := by
  rw [solve, solveIn]
  cases options.check with
  | error problem => simp
  | ok _ =>
    cases SquareProblem.ofCost cost options with
    | error problem => simp
    | ok problem =>
      simp only [true_and, Except.ok.injEq, exists_eq_left', Workspace.prepare, Workspace.empty]
      cases reserve 0 problem.dimension with
      | error cause => simp [bind, Except.bind]
      | ok capacity =>
        simp only [bind, Except.bind, pure, Except.pure, SquareProblem.run,
          SquareProblem.solution, Except.ok.injEq, exists_eq', true_and]
        rcases solveSquare problem.matrix options.initialization
          (Scratch.nothing.cleared problem.dimension) {} with ⟨_ | row, progress⟩
        · simp [eq_comm]
        · simp

/-- No column is real for two rows of a permutation. -/
theorem Extraction.row_unique {n : Nat} {permutation : Equiv.Perm (Fin n)}
    (row other : Fin cost.rows) (col : Fin cost.cols)
    (real : realColumn? cost (Matching.ofPerm permutation).colOf row = some col)
    (real' : realColumn? cost (Matching.ofPerm permutation).colOf other = some col) :
    other = row := by
  obtain ⟨inside, image⟩ := realColumn?_ofPerm.mp real
  obtain ⟨inside', image'⟩ := realColumn?_ofPerm.mp real'
  have same := permutation.injective (Fin.ext (image'.trans image.symm))
  exact Fin.ext (Fin.mk.inj same)

/-- An answer is extracted from a permutation of its square problem. -/
theorem exists_collects_of_solve [LawfulCost κ] (success : solve cost options = .ok answer) :
    ∃ (n : Nat) (permutation : Equiv.Perm (Fin n))
      (extraction : Extraction κ cost.rows cost.cols) (metrics : Metrics)
      (certificate : Option (Certificate κ)),
      extraction.Collects cost (Matching.ofPerm permutation).colOf options.costLimit
        (List.finRange cost.rows) ∧
      answer = extraction.toAssignment metrics certificate := by
  obtain ⟨_, problem, _, _, solved, rfl⟩ := solve_eq_ok_iff.mp success
  obtain ⟨permutation, matched⟩ := exists_perm_of_solveSquare (Prod.ext solved rfl)
  refine ⟨problem.dimension, permutation, _, _, _, ?_, rfl⟩
  rw [show (problem.solution options.initialization).2.scratch.matching = _ from matched]
  exact Extraction.ofSquare_collects Extraction.row_unique

/-- A limit that passes the check is a number. -/
theorem Options.isNaN_of_check (checked : options.check = .ok ()) :
    CostNumber.isNaN options.costLimit = false := by
  rw [Options.check] at checked
  split_ifs at checked with undefined
  exact Bool.eq_false_iff.mpr undefined

/-- The limit has passed the check, and the pairs are those of a permutation. -/
theorem Assignment.Sound.of_solve [LawfulCost κ] (success : solve cost options = .ok answer) :
    answer.Sound cost options.costLimit := by
  obtain ⟨n, permutation, extraction, metrics, certificate, collects, rfl⟩ :=
    exists_collects_of_solve success
  exact collects.sound (Options.isNaN_of_check (solve_eq_ok_iff.mp success).1)

/-- Every answer in rounded arithmetic is a sound assignment, whatever the rounding does. -/
theorem sound_of_solve {cost : CostMatrix Float} {options : Options Float}
    {answer : Assignment Float} (success : solve cost options = .ok answer) :
    answer.Sound cost options.costLimit :=
  .of_solve success

/-- A wide matrix whose second row is left without a column by the limit. -/
theorem sound_of_solve_wide :
    let cost : CostMatrix Float :=
      ⟨2, 3, #[4, 1, 3, 2, 1.5, 5], by decide, by decide, rfl, by decide, by decide +kernel⟩
    let options : Options Float := { extendCost := true, costLimit := 1 }
    ∃ answer, solve cost options = .ok answer ∧ answer.rowToCol = [some 1, none] ∧
      answer.Sound cost options.costLimit := by
  intro cost options
  have rows : (solve cost options).toOption.map (·.rowToCol) = some [some 1, none] := by
    decide +kernel
  cases success : solve cost options with
  | error refusal =>
    rw [success] at rows
    contradiction
  | ok answer =>
    rw [success] at rows
    exact ⟨answer, rfl, Option.some.inj rows, sound_of_solve success⟩

end LinearAssignment
