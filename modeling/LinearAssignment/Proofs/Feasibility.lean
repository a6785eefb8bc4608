import LinearAssignment.Proofs.Cost.Binary64
import LinearAssignment.Proofs.Range
import LinearAssignment.Proofs.Refusal

/-! # When a solve finds no path

A row is stranded only if distances overflow. They do not as long as the costs and the limit leave
room below the largest numbers: a solve climbs above the costs of its square by some multiple of
their size for every row, and a square that fits into memory has few rows. Costs next to the largest
number leave no room, and then a solve may end without an answer.
-/

namespace LinearAssignment

open CostNumber (isFinite ofNat)
open RoundedCost (value range error)

section

variable {κ : Type} [CostNumber κ] [RoundedCost κ] {cost : CostMatrix κ} {options : Options κ}
  {problem : SquareProblem κ} {size : ℚ}

/-! ## Squares of moderate matrices -/

/-- Whether a finite limit has a part in the square of a matrix: a rectangular matrix is filled up
with a sentinel above it, or any matrix is extended around it. -/
def CostMatrix.Heeds (cost : CostMatrix κ) (options : Options κ) : Prop :=
  options.isLimited = true ∧ (options.limitStrategy = .augmented ∨ cost.rows ≠ cost.cols)

/-- All costs of a matrix, and the limit if it has a part in the square, are at most of some
size. -/
structure CostMatrix.Moderate (cost : CostMatrix κ) (options : Options κ) (size : ℚ) : Prop where
  abs_le : ∀ a ∈ cost.data, |RoundedCost.value a| ≤ size
  abs_limit_le : cost.Heeds options → |RoundedCost.value options.costLimit| ≤ size

/-- How large the cells of a square can get in place of costs of some size. -/
def cellSize (κ : Type) [CostNumber κ] [RoundedCost κ] (size : ℚ) : ℚ := 2 * size + 1 + 2 * error κ

namespace CostMatrix.Moderate

variable (moderate : cost.Moderate options size)

include moderate

theorem within {a : κ} (member : a ∈ cost.data) : Within a size :=
  ⟨cost.finite a member, moderate.abs_le a member⟩

theorem within_maxCost : Within cost.maxCost size := by
  have member : cost.maxCost ∈ cost.data.toList := CostNumber.maximum_mem
    cost.toList_data_ne_nil fun a member => cost.finite a (Array.mem_toList_iff.mp member)
  exact moderate.within (Array.mem_toList_iff.mp member)

theorem nonneg : 0 ≤ size := moderate.within_maxCost.nonneg

theorem le_cellSize : size ≤ cellSize κ size := by
  have small : 0 ≤ error κ := RoundedCost.error_nonneg
  rw [cellSize]
  linarith [moderate.nonneg]

theorem within_limit (heeds : cost.Heeds options) : Within options.costLimit size :=
  ⟨heeds.1, moderate.abs_limit_le heeds⟩

theorem within_sentinelReference (rectangular : cost.rows ≠ cost.cols) :
    Within (cost.sentinelReference options.costLimit) size := by
  rw [sentinelReference]
  split_ifs with limited
  · rw [CostNumber.larger]
    split_ifs
    · exact moderate.within_limit ⟨limited, .inr rectangular⟩
    · exact moderate.within_maxCost
  · exact moderate.within_maxCost

/-- The sentinel of moderate costs is rounded but not clamped. -/
theorem within_sentinelCost (rectangular : cost.rows ≠ cost.cols)
    (room : cellSize κ size < range κ) :
    Within (cost.sentinelCost options.costLimit) (cellSize κ size) := by
  have small : 0 ≤ error κ := RoundedCost.error_nonneg
  rw [cellSize] at room ⊢
  have double := (moderate.within_sentinelReference rectangular).magnitude.double (by linarith)
  have sentinel := double.add .one (by linarith)
  rw [sentinelCost, RoundedCost.clampFinite_of_isFinite sentinel.finite]
  exact sentinel.mono (by linarith)

/-- Half of the limit, which stands beside and below the costs of an extended matrix. -/
theorem within_half (heeds : cost.Heeds options) :
    Within (options.costLimit / ofNat 2) (cellSize κ size) := by
  have small : 0 ≤ error κ := RoundedCost.error_nonneg
  exact (moderate.within_limit heeds).half.mono (by rw [cellSize]; linarith [moderate.nonneg])

/-- A cell of the matrix, or whatever fills the square outside of it. -/
theorem within_getD {filling : κ} (filled : Within filling (cellSize κ size)) (row col : Nat) :
    Within ((cost.get? row col).getD filling) (cellSize κ size) := by
  rw [get?]
  split_ifs with inside
  · exact (moderate.within (Array.getElem_mem _)).mono moderate.le_cellSize
  · exact filled

end CostMatrix.Moderate

namespace SquareProblem

/-- All cells of a square are moderate if the matrix is. -/
theorem moderate_of_ofCost (made : ofCost cost options = .ok problem)
    (moderate : cost.Moderate options size) (room : cellSize κ size < range κ) :
    problem.matrix.Moderate (cellSize κ size) := by
  suffices within : ∀ row col, Within (problem.matrix.get row col) (cellSize κ size) from
    ⟨fun row col => (within row col).finite, fun row col => (within row col).abs_le⟩
  obtain ⟨_, ⟨⟨strategy, limited⟩, _, rfl⟩ | ⟨_, ⟨square, rfl⟩ | ⟨rectangular, _, rfl⟩⟩⟩ :=
    ofCost_cases made
  · intro row col
    have cell : (byExtension cost options.costLimit).matrix.get row col = _ :=
      cost.get_extended options.costLimit row col
    rw [cell]
    refine moderate.within_getD ?_ row.val col.val
    split_ifs
    · exact moderate.within_half ⟨limited, .inl strategy⟩
    · exact Within.zero.mono (moderate.nonneg.trans moderate.le_cellSize)
  · intro row col
    exact (moderate.within (Array.getElem_mem _)).mono moderate.le_cellSize
  · intro row col
    have cell : (byPadding cost options.costLimit).matrix.get row col = _ :=
      cost.get_padded (cost.sentinelCost options.costLimit) row col
    rw [cell]
    exact moderate.within_getD (moderate.within_sentinelCost rectangular room) row.val col.val

omit [RoundedCost κ] in
/-- The side of a square in place of a matrix that fits into memory. -/
theorem dimension_le_of_ofCost (made : ofCost cost options = .ok problem)
    (stored : entryBytes * (cost.rows * cost.cols) ≤ addressableBytes) :
    problem.dimension ≤ cost.rows + cost.cols ∧ problem.dimension ≤ 2 ^ 22 := by
  have few {side : Nat} (fits : entryBytes * (side * side) ≤ addressableBytes) :
      side ≤ 2 ^ 22 := by
    by_contra many
    have large : (2 ^ 22 + 1) * (2 ^ 22 + 1) ≤ side * side :=
      Nat.mul_le_mul (by omega) (by omega)
    simp only [entryBytes, addressableBytes] at fits
    omega
  obtain ⟨_, ⟨_, space, rfl⟩ | ⟨_, ⟨square, rfl⟩ | ⟨_, space, rfl⟩⟩⟩ := ofCost_cases made
  · exact ⟨le_rfl, few (fits_of_room space)⟩
  · rw [← square] at stored
    exact ⟨Nat.le_add_right .., few stored⟩
  · exact ⟨max_le (Nat.le_add_right ..) (Nat.le_add_left ..), few (fits_of_room space)⟩

end SquareProblem

/-! ## Room -/

/-- Costs of a square that fits into memory leave room if they are below the range by 32 times the
number of rows: at 53 bits rounding adds less than as much again. -/
theorem climb_lt_range {n : Nat} (precise : 2 ^ 53 * error κ ≤ range κ) (one : 1 ≤ error κ)
    (few : n ≤ 2 ^ 22) (room : 32 * n * size ≤ range κ) :
    2 * climb κ n (cellSize κ size) < range κ := by
  have side : (n : ℚ) ≤ 2 ^ 22 := by exact_mod_cast few
  have first : n * error κ ≤ 2 ^ 22 * error κ := mul_le_mul_of_nonneg_right side (by linarith)
  have second : n * n * error κ ≤ 2 ^ 44 * error κ := by
    refine mul_le_mul_of_nonneg_right ?_ (by linarith)
    calc (n : ℚ) * n ≤ 2 ^ 22 * 2 ^ 22 := mul_le_mul side side (Nat.cast_nonneg n) (by positivity)
      _ = 2 ^ 44 := by norm_num
  have expanded : 2 * climb κ n (cellSize κ size) =
      16 * n * size + 8 * n + 48 * (n * error κ) + 8 * (n * n * error κ) + 4 * error κ := by
    rw [climb, Search.reach, cellSize]
    ring
  rw [expanded]
  linarith

/-- Cells are lower than what a solve climbs to. -/
theorem cellSize_le_climb {n : Nat} (positive : 0 < n) (nonneg : 0 ≤ size) :
    cellSize κ size ≤ 2 * climb κ n (cellSize κ size) := by
  have small : 0 ≤ error κ := RoundedCost.error_nonneg
  have cell : 0 ≤ cellSize κ size := by
    rw [cellSize]
    linarith
  have one : (1 : ℚ) ≤ n := by exact_mod_cast positive
  have reach : 2 * cellSize κ size ≤ Search.reach κ (cellSize κ size) ((2 * n + 5) * error κ) := by
    have wide : 0 ≤ (2 * (n : ℚ) + 5) * error κ := by positivity
    rw [Search.reach]
    linarith
  have rows := le_mul_of_one_le_left (by linarith : 0 ≤ Search.reach κ (cellSize κ size)
    ((2 * n + 5) * error κ)) one
  rw [climb]
  linarith

end

/-! ## 64-bit floating point -/

section

variable {cost : CostMatrix Float} {options : Options Float} {refusal : Refusal Float} {size : ℚ}

/-- A matrix that fits into memory and whose costs leave room for its solve is refused for its
options, for its shape, or for want of memory, and never because a row finds no path. -/
theorem solve_refusal_of_moderate (moderate : cost.Moderate options size)
    (stored : entryBytes * (cost.rows * cost.cols) ≤ addressableBytes)
    (room : 32 * (cost.rows + cost.cols) * size ≤ range Float)
    (refused : solve cost options = .error refusal) :
    (options.check = .error refusal ∧ ∃ reason, refusal = .parameter "cost_limit" reason) ∨
      (refusal = .rectangular cost.rows cost.cols ∧ cost.rows ≠ cost.cols ∧
        options.extendCost = false) ∨
      ∃ side, refusal.LacksRoom side := by
  obtain invalid | shape | space | ⟨problem, row, _, made, stranded, _⟩ := refusal_of_solve refused
  · exact .inl invalid
  · exact .inr (.inl shape)
  · exact .inr (.inr space)
  · obtain ⟨fewer, few⟩ := SquareProblem.dimension_le_of_ofCost made stored
    have side : (problem.dimension : ℚ) ≤ cost.rows + cost.cols := by exact_mod_cast fewer
    have fits : 32 * problem.dimension * size ≤ range Float :=
      (mul_le_mul_of_nonneg_right (mul_le_mul_of_nonneg_left side (by norm_num))
        moderate.nonneg).trans room
    have climb := climb_lt_range Binary64.precise Binary64.one_le_error few fits
    have cell := (cellSize_le_climb row.pos moderate.nonneg).trans_lt climb
    have solved : (problem.solution options.initialization).1 = none :=
      solveSquare_of_moderate (SquareProblem.moderate_of_ofCost made moderate cell) climb
    cases solved.symm.trans stranded

private theorem check_default : ({} : Options Float).check = .ok () := by
  have passes : ({} : Options Float).check.isOk = true := by decide +kernel
  cases checked : ({} : Options Float).check with
  | ok _ => rfl
  | error refusal =>
    rw [checked] at passes
    contradiction

/-- A wide matrix that must not be extended. -/
theorem solve_refusal_of_moderate_wide :
    let cost : CostMatrix Float :=
      ⟨1, 2, #[Float.ofNat 1, Float.ofNat 0], by decide, by decide, rfl, by decide,
        by decide +kernel⟩
    solve cost {} = .error (.rectangular 1 2) ∧ cost.Moderate {} 1 ∧
      cost.rows ≠ cost.cols := by
  intro cost
  have refused : solve cost {} = .error (.rectangular 1 2) :=
    solve_eq_of_ofCost_error check_default rfl
  have moderate : cost.Moderate {} 1 := by
    refine ⟨fun a member => ?_, fun heeds => ?_⟩
    · have entries : a = Float.ofNat 1 ∨ a = Float.ofNat 0 := by simpa [cost] using member
      rcases entries with rfl | rfl
      · exact Within.one.abs_le
      · exact (Within.zero.mono zero_le_one).abs_le
    · have unlimited : ({} : Options Float).isLimited = false := by decide +kernel
      cases unlimited.symm.trans heeds.1
  have room : 32 * ((cost.rows : ℚ) + cost.cols) * 1 ≤ range Float :=
    Binary64.le_range (by norm_num [cost])
  refine ⟨refused, moderate, ?_⟩
  obtain ⟨invalid, _⟩ | ⟨_, differ, _⟩ | ⟨_, ⟨lacks, _⟩ | ⟨_, lacks, _⟩⟩ :=
    solve_refusal_of_moderate moderate (by decide) room refused
  · cases check_default.symm.trans invalid
  · exact differ
  · cases lacks
  · cases lacks

/-- Costs next to the largest number leave no room. The options pass their check and the matrix is
square, but the distance of a column overflows and its row finds no path. -/
theorem solve_stranded_of_overflow :
    let cost : CostMatrix Float :=
      ⟨2, 2, #[1.7e308, -1.7e308, 1.7e308, -1.7e308], by decide, by decide, rfl, by decide,
        by decide +kernel⟩
    let options : Options Float := {}
    options.check = .ok () ∧ cost.rows = cost.cols ∧
      solve cost options = .error (.stranded 1) := by
  intro cost options
  have made : SquareProblem.ofCost cost options = .ok (.asItIs cost rfl) := rfl
  have stranded : ((SquareProblem.asItIs cost rfl).solution options.initialization).1.map
      Fin.val = some 1 := by decide +kernel
  refine ⟨check_default, rfl, ?_⟩
  rw [solve_eq_of_ofCost check_default made]
  cases ended : ((SquareProblem.asItIs cost rfl).solution options.initialization).1 with
  | none =>
    rw [ended] at stranded
    contradiction
  | some row =>
    rw [ended] at stranded
    exact congrArg (fun row => Except.error (Refusal.stranded row)) (Option.some.inj stranded)

end

end LinearAssignment
