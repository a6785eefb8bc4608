import LinearAssignment.Proofs.Rectangular

/-! # A rising limit loses no pairs

With a limit that takes part, each of two solves retains a cheapest pairing at its own limit. The
two pairings may have no pair in common, but neither is cheaper than the other at the limit of the
other. Summed up, the difference of the limits times the difference of the sizes is not negative.
-/

namespace LinearAssignment

open ExactCost (finite)

variable {cost : CostMatrix ExactCost} {options : Options ExactCost}

/-- A pairing that costs least when every pair is credited with a limit. -/
def Pairing.CheapestAt {rows cols : Nat} (pairing : Pairing rows cols)
    (price : Fin rows → Fin cols → ℚ) (limit : ℚ) : Prop :=
  ∀ other : Pairing rows cols, pairing.total (fun row col => price row col - limit) ≤
    other.total (fun row col => price row col - limit)

/-- A cheapest pairing at a higher limit has no fewer pairs. -/
theorem Pairing.CheapestAt.size_mono {rows cols : Nat} {strict loose : Pairing rows cols}
    {price : Fin rows → Fin cols → ℚ} {low high : ℚ} (rises : low < high)
    (atLow : strict.CheapestAt price low) (atHigh : loose.CheapestAt price high) :
    strict.size ≤ loose.size := by
  have strictWins := atLow loose
  have looseWins := atHigh strict
  rw [total_sub, total_sub] at strictWins looseWins
  have exchange : 0 ≤ (high - low) * ((loose.size : ℚ) - strict.size) := by linarith
  have fewer := nonneg_of_mul_nonneg_right exchange (sub_pos.mpr rises)
  exact_mod_cast sub_nonneg.mp fewer

/-- With a finite limit that takes part, a solve matches the pairs of a cheapest pairing at the
limit. -/
theorem exists_solve_cheapestAt {limit : ℚ}
    (shape : cost.isSquare = true ∨ options.extendCost = true)
    (strategy : options.limitStrategy = .augmented) (limited : options.costLimit = finite limit)
    (space : (SquareProblem.room (cost.rows + cost.cols) : Except (Refusal ExactCost) Unit) =
      .ok ()) :
    ∃ (answer : Assignment ExactCost) (optimum : Pairing cost.rows cost.cols),
      solve cost options = .ok answer ∧ answer.matchedCount = optimum.size ∧
        optimum.CheapestAt cost.value limit := by
  have made := SquareProblem.ofCost_augmented shape strategy limited space
  have checked : options.check = .ok () := Options.check_eq_ok (by rw [limited]; simp)
  obtain ⟨answer, optimum, solved, retains, _, fitting⟩ := exists_solve_of_gated checked made
    (SquareProblem.byExtension_gated cost limit) (exists_reserve_of_room space)
  have cheapest : optimum.CheapestAt cost.value limit :=
    fun other => fitting other (Nat.le_add_right ..)
  refine ⟨answer, optimum, solved, ?_, cheapest⟩
  -- A pair above the limit would make the pairing without it cheaper.
  have allowed : ∀ row col, optimum row = some col →
      cost.allows options.costLimit row col = true := by
    intro row col paired
    refine Pairing.keep_of_total_le (fun row col above => ?_) (cheapest _) paired
    rw [limited, ← Bool.not_eq_true, CostMatrix.allows_finite_iff, not_le] at above
    exact sub_pos.mpr above
  rw [retains.records.matchedCount_eq, Pairing.filter_eq_self allowed]

/-- Solved twice with a finite limit that takes part, a matrix has no fewer pairs matched at the
higher limit. The two solves may begin from different starts, and the extended square has to fit
into memory. -/
theorem matchedCount_le_of_limit_lt {strict loose : Options ExactCost} {low high : ℚ}
    (shape : cost.isSquare = true ∨ strict.extendCost = true ∧ loose.extendCost = true)
    (strategies : strict.limitStrategy = .augmented ∧ loose.limitStrategy = .augmented)
    (atLow : strict.costLimit = finite low) (atHigh : loose.costLimit = finite high)
    (rises : low < high)
    (space : (SquareProblem.room (cost.rows + cost.cols) : Except (Refusal ExactCost) Unit) =
      .ok ()) :
    ∃ fewer more : Assignment ExactCost,
      solve cost strict = .ok fewer ∧ solve cost loose = .ok more ∧
        fewer.matchedCount ≤ more.matchedCount := by
  obtain ⟨fewer, small, solved, count, cheapest⟩ :=
    exists_solve_cheapestAt (shape.imp_right And.left) strategies.1 atLow space
  obtain ⟨more, large, solved', count', cheapest'⟩ :=
    exists_solve_cheapestAt (shape.imp_right And.right) strategies.2 atHigh space
  refine ⟨fewer, more, solved, solved', ?_⟩
  rw [count, count']
  exact cheapest.size_mono rises cheapest'

/-- Raising the limit adds a pair but keeps none: the row and the column of the first pair go to two
others. -/
theorem matchedCount_le_of_limit_lt_rerouted :
    let cost : CostMatrix ExactCost :=
      ⟨2, 3, #[finite 0, finite 4, finite 9, finite 3, finite 9, finite 9], by decide, by decide,
        rfl, by decide, by decide⟩
    let strict : Options ExactCost :=
      { extendCost := true, costLimit := finite 2, limitStrategy := .augmented }
    let loose : Options ExactCost :=
      { extendCost := true, costLimit := finite 8, initialization := .zero,
        limitStrategy := .augmented }
    ∃ fewer more : Assignment ExactCost,
      solve cost strict = .ok fewer ∧ solve cost loose = .ok more ∧
        fewer.rowToCol = [some 0, none] ∧ more.rowToCol = [some 1, some 0] ∧
        fewer.matchedCount ≤ more.matchedCount := by
  intro cost strict loose
  have shape : cost.isSquare = true ∨ strict.extendCost = true ∧ loose.extendCost = true :=
    .inr ⟨rfl, rfl⟩
  have rises : (2 : ℚ) < 8 := by norm_num
  have space : (SquareProblem.room (cost.rows + cost.cols) : Except (Refusal ExactCost) Unit) =
      .ok () := rfl
  obtain ⟨fewer, more, solved, solved', count⟩ :=
    matchedCount_le_of_limit_lt shape ⟨rfl, rfl⟩ rfl rfl rises space
  have rows : (solve cost strict).toOption.map (·.rowToCol) = some [some 0, none] := by
    decide +kernel
  have rows' : (solve cost loose).toOption.map (·.rowToCol) = some [some 1, some 0] := by
    decide +kernel
  rw [solved] at rows
  rw [solved'] at rows'
  exact ⟨fewer, more, solved, solved', Option.some.inj rows, Option.some.inj rows', count⟩

end LinearAssignment
