import LinearAssignment.Proofs.Certificate
import LinearAssignment.Proofs.Solve
import LinearAssignment.Proofs.SquareProblem
import LinearAssignment.Proofs.Workspace

/-! # Verified solves

In exact arithmetic a solve that is asked for a certificate never attaches one that fails: its
potentials are feasible for the whole square and tight for every matched pair, whichever square was
made of the matrix and wherever the solve started.
-/

namespace LinearAssignment

open ExactCost (finite)

/-- A square that strands no row is answered, and its state at the end is kept. -/
theorem SquareProblem.run_of_solved {κ : Type} [CostNumber κ] {problem : SquareProblem κ}
    (cost : CostMatrix κ) {options : Options κ} (capacity : Nat)
    {scratch : Scratch κ problem.dimension} {final : Progress κ problem.dimension}
    (solved : solveSquare problem.matrix options.initialization scratch {} = (none, final)) :
    ∃ log, problem.run cost options capacity scratch =
      ⟨.ok (problem.answer cost options final), ⟨capacity, problem.dimension, final.scratch⟩, log⟩ := by
  rw [run, solved]
  exact ⟨_, rfl⟩

theorem SquareProblem.certificate_answer {κ : Type} [CostNumber κ] {problem : SquareProblem κ}
    (cost : CostMatrix κ) {options : Options κ} (verify : options.verify = true)
    (progress : Progress κ problem.dimension) :
    (problem.answer cost options progress).certificate =
      some (Certificate.compute problem.matrix progress.scratch.matching.colOf
        progress.scratch.potentials) := by
  simp only [answer, Extraction.toAssignment, verify, if_true]

/-- Potentials that show a permutation of a square to be a cheapest one. -/
structure Potentials.Certify {n : Nat} (potentials : Potentials ExactCost n)
    (matrix : SquareMatrix ExactCost n) (permutation : Equiv.Perm (Fin n)) : Prop where
  rational : potentials.Rational
  feasible : ∀ row col, finite 0 ≤ Certificate.reducedCost matrix potentials row col
  tight : ∀ row, Certificate.reducedCost matrix potentials row (permutation row) = finite 0

/-- Potentials that price a permutation certify it. -/
theorem Priced.certify {n : Nat} {matrix : SquareMatrix ExactCost n}
    {potentials : Potentials ExactCost n} {permutation : Equiv.Perm (Fin n)}
    (priced : Priced matrix potentials (.ofPerm permutation)) (rational : matrix.Rational) :
    potentials.Certify matrix permutation := by
  refine ⟨priced.rational, ?_, ?_⟩
  · intro row col
    rw [Certificate.reducedCost_eq rational priced.rational, ExactCost.finite_le_finite]
    exact priced.feasible row col (by simp)
  · intro row
    rw [Certificate.reducedCost_eq rational priced.rational,
      priced.tight row _ (Matching.colOf_ofPerm permutation row)]

/-- Whatever matrix and options a solve accepts, if it is asked for a certificate then it answers
with a perfect one, and leaves behind the potentials that certify its permutation. -/
theorem solveIn_perfect {cost : CostMatrix ExactCost} {options : Options ExactCost}
    {problem : SquareProblem ExactCost} (verify : options.verify = true)
    (checked : options.check = .ok ()) (made : SquareProblem.ofCost cost options = .ok problem) :
    ∃ (answer : Assignment ExactCost) (certificate : Certificate ExactCost) (capacity : Nat)
      (scratch : Scratch ExactCost problem.dimension) (log : List (LogEntry ExactCost))
      (permutation : Equiv.Perm (Fin problem.dimension)),
      solveIn .empty cost options =
        ⟨.ok answer, ⟨capacity, problem.dimension, scratch⟩, log⟩ ∧
      scratch.matching = .ofPerm permutation ∧
      scratch.potentials.Certify problem.matrix permutation ∧
      answer.certificate = some certificate ∧
      certificate.Perfect problem.matrix permutation := by
  have rational := SquareProblem.rational_of_ofCost made
  obtain ⟨capacity, reserved⟩ := SquareProblem.exists_reserve_of_ofCost made
  obtain ⟨final, permutation, solved, matched, priced⟩ := exists_priced_of_solveSquare rational
    options.initialization (Scratch.nothing : Scratch ExactCost 0) {}
  obtain ⟨log, ran⟩ := SquareProblem.run_of_solved cost capacity solved
  have attached := SquareProblem.certificate_answer cost verify final
  refine ⟨problem.answer cost options final, _, capacity, final.scratch, log, permutation, ?_,
    matched, priced.certify rational, attached, ?_⟩
  · exact (solveIn_eq_run checked made reserved).trans ran
  · rw [matched]
    exact priced.perfect rational

/-- A wide matrix that is extended around a negative limit and solved from zero potentials. -/
theorem solveIn_perfect_extended :
    let cost : CostMatrix ExactCost :=
      ⟨1, 2, #[finite (-3), finite (1 / 2)], by decide, by decide, rfl, by decide, by decide⟩
    let options : Options ExactCost :=
      { extendCost := true, costLimit := finite (-1), initialization := .zero,
        limitStrategy := .augmented, verify := true }
    let problem := SquareProblem.byExtension cost (finite (-1))
    ∃ (answer : Assignment ExactCost) (certificate : Certificate ExactCost)
      (permutation : Equiv.Perm (Fin 3)),
      solve cost options = .ok answer ∧ answer.certificate = some certificate ∧
      certificate.primalObjective = finite (-7 / 2) ∧
      certificate.Perfect problem.matrix permutation := by
  intro cost options problem
  have checked : options.check = .ok () := rfl
  have made : SquareProblem.ofCost cost options = .ok problem := rfl
  obtain ⟨answer, certificate, _, _, _, permutation, ran, _, _, attached, perfect⟩ :=
    solveIn_perfect rfl checked made
  have solved : solve cost options = .ok answer := congrArg SolveRun.result ran
  have objective : ((solve cost options).toOption.bind (·.certificate)).map
      (·.primalObjective) = some (finite (-7 / 2)) := by decide +kernel
  rw [solved] at objective
  simp only [Except.toOption, Option.bind_some, attached, Option.map_some,
    Option.some.injEq] at objective
  exact ⟨answer, certificate, permutation, solved, attached, objective, perfect⟩

end LinearAssignment
