import LinearAssignment.Proofs.Capacity
import LinearAssignment.Proofs.Matrix
import LinearAssignment.Proofs.Pairing
import LinearAssignment.Proofs.Search.Shortest

/-! # What square problems price

Every square problem of a cost matrix prices a permutation by its real part: each pair inside the
matrix counts with its cost above some gate, and what else the square charges does not depend on the
permutation. A matrix as it is has gate zero, a filled one its sentinel, and an extended one its
limit. So a cheapest permutation has a real part that is cheapest at the gate.
-/

namespace LinearAssignment

open CostNumber (isFinite ofNat)
open ExactCost (finite)

/-! ## Room -/

/-- A square that there is room for fits into the address space. -/
theorem SquareProblem.fits_of_room {κ : Type} {n : Nat}
    (room : (SquareProblem.room n : Except (Refusal κ) Unit) = .ok ()) :
    entryBytes * (n * n) ≤ addressableBytes := by
  rw [SquareProblem.room] at room
  split_ifs at room
  cases granted : reserve 0 (n * n) with
  | error cause =>
    rw [granted] at room
    contradiction
  | ok capacity =>
    rcases (reserve_eq_ok_iff.mp granted).2 with empty | fits
    · rw [Nat.le_zero.mp empty]
      decide
    · exact fits

/-- Where there is room for a square there is room for its sides. -/
theorem exists_reserve_of_room {κ : Type} {n : Nat}
    (room : (SquareProblem.room n : Except (Refusal κ) Unit) = .ok ()) :
    ∃ capacity, reserve 0 n = .ok capacity :=
  exists_reserve_eq_ok ((Nat.mul_le_mul_left _ (Nat.le_mul_self n)).trans
    (SquareProblem.fits_of_room room))

variable {κ : Type} [CostNumber κ]

/-- The rows of a matrix are always few enough. -/
theorem CostMatrix.exists_reserve_rows (cost : CostMatrix κ) (square : cost.rows = cost.cols) :
    ∃ capacity, reserve 0 cost.rows = .ok capacity := by
  apply exists_reserve_eq_ok
  by_contra above
  have many : 4294967296 ≤ cost.rows := by
    simp only [entryBytes, addressableBytes] at above
    omega
  have size : cost.rows * cost.rows < 18446744073709551616 := by
    have bound := cost.size_lt
    rwa [← square] at bound
  have large := Nat.mul_le_mul many many
  omega

/-! ## Gates -/

theorem CostMatrix.isFinite_get (cost : CostMatrix κ) (row : Fin cost.rows) (col : Fin cost.cols) :
    isFinite (cost.get row col) = true :=
  cost.finite _ (Array.getElem_mem _)

theorem CostMatrix.toList_data_ne_nil (cost : CostMatrix κ) : cost.data.toList ≠ [] := by
  refine List.ne_nil_of_length_pos ?_
  rw [Array.length_toList, cost.size_eq]
  exact Nat.mul_pos cost.rows_pos cost.cols_pos

/-- The cost of a pair as a rational. -/
def CostMatrix.value (cost : CostMatrix ExactCost) (row : Fin cost.rows) (col : Fin cost.cols) : ℚ :=
  (cost.get row col).value

variable {cost : CostMatrix ExactCost} {problem : SquareProblem ExactCost} {gate : ℚ}

/-- How far the cost of a cell of a square lies above a gate, if it is a cell of the matrix. -/
def CostMatrix.excess (cost : CostMatrix ExactCost) (gate : ℚ) (row col : Nat) : ℚ :=
  (cost.get? row col).elim 0 fun a => a.value - gate

@[simp] theorem CostMatrix.excess_val (row : Fin cost.rows) (col : Fin cost.cols) :
    cost.excess gate row.val col.val = cost.value row col - gate := by
  rw [excess, get?_val]
  rfl

theorem CostMatrix.excess_eq_zero {row col : Nat} (outside : cost.rows ≤ row ∨ cost.cols ≤ col) :
    cost.excess gate row col = 0 := by
  rw [excess, get?_eq_none outside]
  rfl

/-- A square problem with the costs of a matrix above a gate, beside prices of its rows and
columns. -/
structure SquareProblem.Gated (problem : SquareProblem ExactCost) (cost : CostMatrix ExactCost)
    (gate : ℚ) : Prop where
  tall : cost.rows ≤ problem.dimension
  wide : cost.cols ≤ problem.dimension
  rational : problem.matrix.Rational
  split : ∃ rowPrice colPrice : Nat → ℚ, ∀ row col : Fin problem.dimension,
    (problem.matrix.get row col).value =
      cost.excess gate row.val col.val + (rowPrice row.val + colPrice col.val)

/-- A permutation costs as much as its real part, up to a constant. -/
theorem SquareProblem.Gated.sum_value (gated : problem.Gated cost gate) :
    ∃ constant : ℚ, ∀ permutation : Equiv.Perm (Fin problem.dimension),
      ∑ row, (problem.matrix.get row (permutation row)).value =
        (Pairing.realPart permutation : Pairing cost.rows cost.cols).total
          (fun row col => cost.value row col - gate) + constant := by
  obtain ⟨rowPrice, colPrice, split⟩ := gated.split
  refine ⟨∑ row : Fin problem.dimension, rowPrice row.val +
    ∑ col : Fin problem.dimension, colPrice col.val, fun permutation => ?_⟩
  have real := Pairing.sum_eq_total_realPart gated.tall permutation (cost.excess gate)
    fun _ _ outside => CostMatrix.excess_eq_zero outside
  simp only [CostMatrix.excess_val] at real
  rw [← real, ← Equiv.sum_comp permutation fun col => colPrice col.val, ← Finset.sum_add_distrib,
    ← Finset.sum_add_distrib]
  exact Finset.sum_congr rfl fun row _ => split row (permutation row)

/-! ## The three square problems -/

/-- A square as it is has the costs of the matrix. -/
theorem SquareProblem.get_asItIs (cost : CostMatrix κ) (square : cost.rows = cost.cols)
    (row col : Fin cost.rows) :
    (asItIs cost square).matrix.get row col = cost.get row (col.cast square) := by
  simp only [SquareMatrix.get, CostMatrix.get, asItIs, Fin.val_cast]
  congr 3

theorem SquareProblem.asItIs_gated (square : cost.rows = cost.cols) :
    (asItIs cost square).Gated cost 0 := by
  have cell : ∀ row col : Fin cost.rows, (asItIs cost square).matrix.get row col =
      cost.get row (col.cast square) := get_asItIs cost square
  refine ⟨le_rfl, square.ge, fun row col => ?_, fun _ => 0, fun _ => 0, fun row col => ?_⟩
  · rw [cell row col]
    exact cost.isFinite_get row (col.cast square)
  · have excess : cost.excess 0 row.val col.val = cost.value row (col.cast square) - 0 :=
      CostMatrix.excess_val row (col.cast square)
    rw [cell row col, excess]
    change cost.value row (col.cast square) = cost.value row (col.cast square) - 0 + (0 + 0)
    ring

private theorem isFinite_cell {filling : ExactCost} (row col : Nat)
    (finite : isFinite filling = true) : isFinite ((cost.get? row col).getD filling) = true := by
  rw [CostMatrix.get?]
  split_ifs with inside
  · exact cost.isFinite_get _ _
  · exact finite

private theorem isFinite_sentinelCost (cost : CostMatrix ExactCost) (limit : ExactCost) :
    isFinite (cost.sentinelCost limit) = true := by
  have largest : isFinite cost.maxCost = true :=
    ExactCost.isFinite_maximum _ cost.toList_data_ne_nil fun a member =>
      cost.finite a (by simpa using member)
  have reference : isFinite (cost.sentinelReference limit) = true := by
    rw [CostMatrix.sentinelReference]
    split_ifs with limited
    · exact ExactCost.isFinite_larger largest limited
    · exact largest
  rw [CostMatrix.sentinelCost, ExactCost.eq_finite_value reference]
  rfl

theorem SquareProblem.byPadding_gated (cost : CostMatrix ExactCost) (limit : ExactCost) :
    (byPadding cost limit).Gated cost (cost.sentinelCost limit).value := by
  have cell : ∀ row col : Fin cost.dimension, (byPadding cost limit).matrix.get row col =
      (cost.get? row.val col.val).getD (cost.sentinelCost limit) :=
    cost.get_padded (cost.sentinelCost limit)
  refine ⟨Nat.le_max_left .., Nat.le_max_right .., fun row col => ?_,
    fun _ => (cost.sentinelCost limit).value, fun _ => 0, fun row col => ?_⟩
  · rw [cell row col]
    exact isFinite_cell row.val col.val (isFinite_sentinelCost cost limit)
  · rw [cell row col, CostMatrix.excess]
    cases cost.get? row.val col.val with
    | none => simp
    | some a => simp

theorem SquareProblem.byExtension_gated (cost : CostMatrix ExactCost) (limit : ℚ) :
    (byExtension cost (finite limit)).Gated cost limit := by
  have cell : ∀ row col : Fin (cost.rows + cost.cols),
      (byExtension cost (finite limit)).matrix.get row col = (cost.get? row.val col.val).getD
        (if row.val < cost.rows ∨ col.val < cost.cols then finite (limit / 2) else finite 0) :=
    cost.get_extended (finite limit)
  refine ⟨Nat.le_add_right .., Nat.le_add_left .., fun row col => ?_,
    fun row => if row < cost.rows then limit / 2 else 0,
    fun col => if col < cost.cols then limit / 2 else 0, fun row col => ?_⟩
  · rw [cell row col]
    refine isFinite_cell row.val col.val ?_
    split_ifs
    · rfl
    · rfl
  · rw [cell row col, CostMatrix.excess]
    by_cases inRows : row.val < cost.rows
    · by_cases inCols : col.val < cost.cols
      · rw [CostMatrix.get?, dif_pos ⟨inRows, inCols⟩]
        simp only [Option.getD_some, Option.elim_some, inRows, inCols, if_true]
        ring
      · rw [CostMatrix.get?_eq_none (.inr (by omega))]
        simp [inRows, inCols]
    · rw [CostMatrix.get?_eq_none (.inl (by omega))]
      by_cases inCols : col.val < cost.cols
      · simp [inRows, inCols]
      · simp [inRows, inCols]

/-! ## The square problem of some options -/

variable {options : Options ExactCost}

/-- A matrix that is square or may be extended is not refused for its shape. -/
theorem SquareProblem.not_rectangular {cost : CostMatrix κ} {options : Options κ}
    (shape : cost.isSquare = true ∨ options.extendCost = true) :
    (!cost.isSquare && !options.extendCost) = false := by
  rcases shape with square | extended
  · simp [square]
  · simp [extended]

/-- Without the limit a matrix is solved as it is or filled up. -/
theorem SquareProblem.exists_ofCost_postFilter
    (shape : cost.isSquare = true ∨ options.extendCost = true)
    (strategy : options.limitStrategy = .postFilter)
    (space : cost.isSquare = true ∨
      (room cost.dimension : Except (Refusal ExactCost) Unit) = .ok ()) :
    ∃ problem gate, ofCost cost options = .ok problem ∧ problem.Gated cost gate ∧
      problem.dimension = max cost.rows cost.cols ∧
      ∃ capacity, reserve 0 problem.dimension = .ok capacity := by
  have accepted := not_rectangular shape
  by_cases square : cost.rows = cost.cols
  · refine ⟨asItIs cost square, 0, ?_, asItIs_gated square, ?_, cost.exists_reserve_rows square⟩
    · simp [ofCost, accepted, strategy, square]
    · exact (max_eq_left square.ge).symm
  · have filled : (room cost.dimension : Except (Refusal ExactCost) Unit) = .ok () :=
      space.resolve_left fun isSquare => square (eq_of_beq isSquare)
    refine ⟨byPadding cost options.costLimit, _, ?_, byPadding_gated cost options.costLimit, rfl,
      exists_reserve_of_room filled⟩
    simp [ofCost, accepted, strategy, square, filled, bind, Except.bind, pure, Except.pure]

/-- With a finite limit that takes part a matrix is extended around it. -/
theorem SquareProblem.ofCost_augmented {limit : ℚ}
    (shape : cost.isSquare = true ∨ options.extendCost = true)
    (strategy : options.limitStrategy = .augmented) (limited : options.costLimit = finite limit)
    (space : (room (cost.rows + cost.cols) : Except (Refusal ExactCost) Unit) = .ok ()) :
    ofCost cost options = .ok (byExtension cost (finite limit)) := by
  have accepted := not_rectangular shape
  have isLimited : options.isLimited = true := by
    rw [Options.isLimited, limited]
    rfl
  simp [ofCost, accepted, strategy, isLimited, limited, space, bind, Except.bind, pure,
    Except.pure]

/-! ## Every square problem -/

/-- A cost matrix is solved in one of three squares, and there is room for the square if it is a new
one. -/
theorem SquareProblem.ofCost_cases {cost : CostMatrix κ} {options : Options κ}
    {problem : SquareProblem κ} (made : ofCost cost options = .ok problem) :
    (cost.isSquare = true ∨ options.extendCost = true) ∧
      ((options.limitStrategy = .augmented ∧ options.isLimited = true) ∧
          (room (cost.rows + cost.cols) : Except (Refusal κ) Unit) = .ok () ∧
          problem = byExtension cost options.costLimit ∨
        ¬ (options.limitStrategy = .augmented ∧ options.isLimited = true) ∧
          ((∃ square, problem = asItIs cost square) ∨
            cost.rows ≠ cost.cols ∧
              (room cost.dimension : Except (Refusal κ) Unit) = .ok () ∧
              problem = byPadding cost options.costLimit)) := by
  rw [ofCost] at made
  split_ifs at made with refused limited square
  · have shape : cost.isSquare = true ∨ options.extendCost = true := by
      simpa [imp_iff_not_or] using refused
    cases space : (room (cost.rows + cost.cols) : Except (Refusal κ) Unit) with
    | error cause => simp [space, bind, Except.bind] at made
    | ok _ =>
      simp only [space, bind, Except.bind, pure, Except.pure, Except.ok.injEq] at made
      exact ⟨shape, .inl ⟨limited, rfl, made.symm⟩⟩
  · refine ⟨.inl (beq_iff_eq.mpr square), .inr ⟨limited, .inl ⟨square, ?_⟩⟩⟩
    exact (Except.ok.inj made).symm
  · have shape : cost.isSquare = true ∨ options.extendCost = true := by
      simpa [imp_iff_not_or] using refused
    cases space : (room cost.dimension : Except (Refusal κ) Unit) with
    | error cause => simp [space, bind, Except.bind] at made
    | ok _ =>
      simp only [space, bind, Except.bind, pure, Except.pure, Except.ok.injEq] at made
      exact ⟨shape, .inr ⟨limited, .inr ⟨square, rfl, made.symm⟩⟩⟩

/-- Where there is a square problem there is room for scratch of its side. -/
theorem SquareProblem.exists_reserve_of_ofCost {cost : CostMatrix κ} {options : Options κ}
    {problem : SquareProblem κ} (made : ofCost cost options = .ok problem) :
    ∃ capacity, reserve 0 problem.dimension = .ok capacity := by
  obtain ⟨_, ⟨_, space, rfl⟩ | ⟨_, ⟨square, rfl⟩ | ⟨_, space, rfl⟩⟩⟩ := ofCost_cases made
  · exact exists_reserve_of_room space
  · exact cost.exists_reserve_rows square
  · exact exists_reserve_of_room space

/-- All costs of a square problem are rational. -/
theorem SquareProblem.rational_of_ofCost (made : ofCost cost options = .ok problem) :
    problem.matrix.Rational := by
  obtain ⟨_, ⟨⟨_, limited⟩, _, rfl⟩ | ⟨_, ⟨square, rfl⟩ | ⟨_, _, rfl⟩⟩⟩ := ofCost_cases made
  · rw [ExactCost.eq_finite_value limited]
    exact (byExtension_gated cost _).rational
  · exact (asItIs_gated square).rational
  · exact (byPadding_gated cost options.costLimit).rational

end LinearAssignment
