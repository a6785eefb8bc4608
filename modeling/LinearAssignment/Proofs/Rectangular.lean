import LinearAssignment.Proofs.Optimality
import LinearAssignment.Proofs.Retention
import LinearAssignment.Proofs.Solve

/-! # Rectangular solves are optimal

In exact arithmetic a solve retains, up to the limit, a pairing that is cheapest at the gate of its
square problem. A filled square pairs every row or every column, so there the gate does not matter:
the pairing is a cheapest one of full size. An extended square has room for every pairing and the
limit is its gate: no cheapest pairing has a pair above it, so nothing is dropped.
-/

namespace LinearAssignment

open ExactCost (finite)

variable {cost : CostMatrix ExactCost} {options : Options ExactCost}
  {problem : SquareProblem ExactCost} {gate : ℚ}

/-- Every limit but the lower end passes the check. -/
theorem Options.check_eq_ok (limit : options.costLimit ≠ .bottom) : options.check = .ok () := by
  have isBottom : (options.costLimit == -CostNumber.infinity) = false := decide_eq_false limit
  have isNaN : CostNumber.isNaN options.costLimit = false := rfl
  simp [Options.check, isBottom, isNaN]

/-- The answer from a permutation retains its real part. -/
theorem SquareProblem.retains_answer {permutation : Equiv.Perm (Fin problem.dimension)}
    (initialization : DualStart)
    (matched : (problem.solution initialization).2.scratch.matching = .ofPerm permutation) :
    (problem.answer cost options (problem.solution initialization).2).Retains cost
      options.costLimit (Pairing.realPart permutation) := by
  have collects : (Extraction.ofSquare cost (Matching.ofPerm permutation).colOf
      options.costLimit).Collects cost (Matching.ofPerm permutation).colOf options.costLimit
        (List.finRange cost.rows) :=
    Extraction.ofSquare_collects Extraction.row_unique
  rw [answer]
  simp only [matched]
  refine ⟨collects.records _ _, collects.totalCost_eq_total, ?_⟩
  have before : (problem.solution initialization).2.tally.metrics.excludedByLimit = 0 :=
    excludedByLimit_solveSquare ..
  have few : ((Pairing.realPart permutation).filter (cost.excludes options.costLimit)).size <
      wordSize :=
    calc ((Pairing.realPart permutation).filter (cost.excludes options.costLimit)).size
      _ ≤ cost.rows := Pairing.size_le_rows _
      _ ≤ cost.rows * cost.cols := Nat.le_mul_of_pos_right _ cost.cols_pos
      _ < wordSize := cost.size_lt
  change ((problem.solution initialization).2.tally.metrics.excludedByLimit +
    (Extraction.ofSquare cost (Matching.ofPerm permutation).colOf options.costLimit).excluded) %
      wordSize = _
  rw [before, collects.excluded_eq_size, Nat.zero_add, Nat.mod_eq_of_lt few]

/-- A gated square problem is solved, and its answer retains a pairing that is cheapest at the gate
among all that the square has room for. -/
theorem exists_solve_of_gated (checked : options.check = .ok ())
    (made : SquareProblem.ofCost cost options = .ok problem) (gated : problem.Gated cost gate)
    (space : ∃ capacity, reserve 0 problem.dimension = .ok capacity) :
    ∃ (answer : Assignment ExactCost) (optimum : Pairing cost.rows cost.cols),
      solve cost options = .ok answer ∧ answer.Retains cost options.costLimit optimum ∧
      cost.rows + cost.cols ≤ problem.dimension + optimum.size ∧
      ∀ other : Pairing cost.rows cost.cols,
        cost.rows + cost.cols ≤ problem.dimension + other.size →
          optimum.total (fun row col => cost.value row col - gate) ≤
            other.total (fun row col => cost.value row col - gate) := by
  obtain ⟨final, permutation, solved, matched, priced⟩ := exists_priced_of_solveSquare
    gated.rational options.initialization (Scratch.nothing : Scratch ExactCost 0) {}
  have solution : problem.solution options.initialization = (none, final) := solved
  obtain ⟨constant, sum_value⟩ := gated.sum_value
  refine ⟨problem.answer cost options (problem.solution options.initialization).2,
    Pairing.realPart permutation, ?_, ?_, Pairing.le_size_realPart gated.tall gated.wide _,
    fun other fits => ?_⟩
  · exact solve_eq_ok_iff.mpr ⟨checked, problem, made, space, by rw [solution], rfl⟩
  · apply problem.retains_answer
    rw [solution, matched]
  · obtain ⟨rival, rfl⟩ := Pairing.exists_realPart_eq gated.tall gated.wide fits
    have cheapest := priced.sum_value_le rival
    rw [sum_value, sum_value] at cheapest
    exact le_of_add_le_add_right cheapest

/-- With the limit applied afterwards, a solve finds a pairing of full size that costs least among
all of that size, and retains its pairs up to the limit. Without a limit no row, or no column, is
left open. The square has to fit into memory. -/
theorem solve_postFilter_optimal
    (shape : cost.isSquare = true ∨ options.extendCost = true)
    (strategy : options.limitStrategy = .postFilter) (limit : options.costLimit ≠ .bottom)
    (space : cost.isSquare = true ∨
      (SquareProblem.room cost.dimension : Except (Refusal ExactCost) Unit) = .ok ()) :
    ∃ (answer : Assignment ExactCost) (optimum : Pairing cost.rows cost.cols),
      solve cost options = .ok answer ∧
      optimum.size = min cost.rows cost.cols ∧
      (∀ other : Pairing cost.rows cost.cols, other.size = min cost.rows cost.cols →
        optimum.total cost.value ≤ other.total cost.value) ∧
      answer.Retains cost options.costLimit optimum ∧
      (options.costLimit = .top → cost.rows ≤ cost.cols → answer.unmatchedRows = []) ∧
      (options.costLimit = .top → cost.cols ≤ cost.rows → answer.unmatchedCols = []) := by
  obtain ⟨problem, gate, made, gated, dimension, reserved⟩ :=
    SquareProblem.exists_ofCost_postFilter shape strategy space
  obtain ⟨answer, optimum, solved, retains, full, cheapest⟩ :=
    exists_solve_of_gated (Options.check_eq_ok limit) made gated reserved
  have rows := optimum.size_le_rows
  have cols := optimum.size_le_cols
  rw [dimension] at full cheapest
  have size : optimum.size = min cost.rows cost.cols := by omega
  have records : options.costLimit = .top → answer.Records optimum := by
    intro top
    have records := retains.records
    rwa [top, Pairing.filter_eq_self fun row col _ => CostMatrix.allows_top] at records
  refine ⟨answer, optimum, solved, size, fun other same => ?_, retains, fun top wide => ?_,
    fun top tall => ?_⟩
  · have bound := cheapest other (by omega)
    rw [Pairing.total_sub, Pairing.total_sub, size, same] at bound
    exact (sub_le_sub_iff_right _).mp bound
  · exact (records top).unmatchedRows_eq_nil (by omega)
  · exact (records top).unmatchedCols_eq_nil (by omega)

/-- A tall matrix with one pair of its optimum above the limit. -/
theorem solve_postFilter_optimal_tall :
    let cost : CostMatrix ExactCost :=
      ⟨3, 2, #[finite 4, finite (-1), finite 3, finite 2, finite 0, finite 5], by decide, by decide,
        rfl, by decide, by decide⟩
    let options : Options ExactCost :=
      { extendCost := true, costLimit := finite (-1 / 2), initialization := .zero }
    ∃ (answer : Assignment ExactCost) (optimum : Pairing 3 2),
      solve cost options = .ok answer ∧ answer.rowToCol = [some 1, none, none] ∧
      optimum.size = 2 ∧
      (∀ other : Pairing 3 2, other.size = 2 → optimum.total cost.value ≤ other.total cost.value) ∧
      answer.Retains cost options.costLimit optimum := by
  intro cost options
  have shape : cost.isSquare = true ∨ options.extendCost = true := .inr rfl
  have space : cost.isSquare = true ∨
      (SquareProblem.room cost.dimension : Except (Refusal ExactCost) Unit) = .ok () := .inr rfl
  obtain ⟨answer, optimum, solved, size, cheapest, retains, _⟩ :=
    solve_postFilter_optimal shape rfl (by decide) space
  have rows : (solve cost options).toOption.map (·.rowToCol) = some [some 1, none, none] := by
    decide +kernel
  rw [solved] at rows
  exact ⟨answer, optimum, solved, Option.some.inj rows, size, cheapest, retains⟩

/-- With a finite limit that takes part, a solve finds a pairing that costs least among all of any
size, when every pair is credited with the limit. None of its pairs costs more than that, so all are
retained. The extended square has to fit into memory. -/
theorem solve_augmented_optimal {limit : ℚ}
    (shape : cost.isSquare = true ∨ options.extendCost = true)
    (strategy : options.limitStrategy = .augmented) (limited : options.costLimit = finite limit)
    (space : (SquareProblem.room (cost.rows + cost.cols) : Except (Refusal ExactCost) Unit) =
      .ok ()) :
    ∃ (answer : Assignment ExactCost) (optimum : Pairing cost.rows cost.cols),
      solve cost options = .ok answer ∧
      answer.Records optimum ∧
      answer.metrics.excludedByLimit = 0 ∧
      (∀ row col, optimum row = some col → cost.value row col ≤ limit) ∧
      ∀ other : Pairing cost.rows cost.cols,
        optimum.total (fun row col => cost.value row col - limit) ≤
          other.total (fun row col => cost.value row col - limit) := by
  have made := SquareProblem.ofCost_augmented shape strategy limited space
  have checked : options.check = .ok () := Options.check_eq_ok (by rw [limited]; simp)
  obtain ⟨answer, optimum, solved, retains, _, cheapest⟩ := exists_solve_of_gated checked made
    (SquareProblem.byExtension_gated cost limit) (exists_reserve_of_room space)
  rw [limited] at retains
  have cheapest' : ∀ other : Pairing cost.rows cost.cols,
      optimum.total (fun row col => cost.value row col - limit) ≤
        other.total (fun row col => cost.value row col - limit) :=
    fun other => cheapest other (Nat.le_add_right ..)
  have allowed : ∀ row col, optimum row = some col →
      cost.allows (finite limit) row col = true := by
    intro row col paired
    refine Pairing.keep_of_total_le (fun row col above => ?_) (cheapest' _) paired
    rw [← Bool.not_eq_true, CostMatrix.allows_finite_iff, not_le] at above
    exact sub_pos.mpr above
  refine ⟨answer, optimum, solved, ?_, ?_, fun row col paired => ?_, cheapest'⟩
  · have records := retains.records
    rwa [Pairing.filter_eq_self allowed] at records
  · rw [retains.excluded_eq, Pairing.size_filter_eq_zero fun row col paired => ?_]
    have isAllowed := allowed row col paired
    rwa [CostMatrix.allows_eq_not_excludes, Bool.not_eq_true'] at isAllowed
  · exact CostMatrix.allows_finite_iff.mp (allowed row col paired)

/-- The limit reroutes the first row: paired without it, the second row would take its column. -/
theorem solve_augmented_optimal_rerouted :
    let cost : CostMatrix ExactCost :=
      ⟨2, 2, #[finite 1, finite 9, finite 11, finite 30], by decide, by decide, rfl, by decide,
        by decide⟩
    let options : Options ExactCost := { costLimit := finite 10, limitStrategy := .augmented }
    ∃ (answer : Assignment ExactCost) (optimum : Pairing 2 2),
      solve cost options = .ok answer ∧ answer.rowToCol = [some 0, none] ∧
      answer.Records optimum ∧
      ∀ other : Pairing 2 2, optimum.total (fun row col => cost.value row col - 10) ≤
        other.total (fun row col => cost.value row col - 10) := by
  intro cost options
  have shape : cost.isSquare = true ∨ options.extendCost = true := .inl rfl
  have space : (SquareProblem.room (cost.rows + cost.cols) : Except (Refusal ExactCost) Unit) =
      .ok () := rfl
  obtain ⟨answer, optimum, solved, records, _, _, cheapest⟩ :=
    solve_augmented_optimal shape rfl rfl space
  have rows : (solve cost options).toOption.map (·.rowToCol) = some [some 0, none] := by
    decide +kernel
  rw [solved] at rows
  exact ⟨answer, optimum, solved, Option.some.inj rows, records, cheapest⟩

end LinearAssignment
