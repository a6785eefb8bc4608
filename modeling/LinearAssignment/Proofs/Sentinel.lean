import LinearAssignment.Proofs.Cost.Binary64
import LinearAssignment.Proofs.SquareProblem

/-! # The sentinel of filled cells

The cells that fill a matrix up to a square hold one sentinel, which has to be above every cost and
above a finite limit. Doubling the reference is exact unless it overflows, and adding one to the
double cannot fall below it, even where rounding absorbs the one. Where the double overflows, the
largest number takes its place. It is above every other number, but not above itself.
-/

namespace LinearAssignment

open CostNumber (clampFinite isFinite magnitude ofNat)

namespace CostMatrix

/-! ## The reference -/

section

variable {κ : Type} [CostNumber κ] [RoundedCost κ] (cost : CostMatrix κ) (limit : κ)

theorem value_le_maxCost (row : Fin cost.rows) (col : Fin cost.cols) :
    RoundedCost.value (cost.get row col) ≤ RoundedCost.value cost.maxCost :=
  CostNumber.value_le_maximum (fun a member => cost.finite a (Array.mem_toList_iff.mp member))
    (Array.mem_toList_iff.mpr (Array.getElem_mem _))

theorem isFinite_maxCost : isFinite cost.maxCost = true := by
  have finite : ∀ a ∈ cost.data.toList, isFinite a = true := fun a member =>
    cost.finite a (Array.mem_toList_iff.mp member)
  exact finite _ (CostNumber.maximum_mem cost.toList_data_ne_nil finite)

/-- What the sentinel has to exceed. -/
structure Bounds (bound : κ) : Prop where
  finite : isFinite bound = true
  entry (row : Fin cost.rows) (col : Fin cost.cols) :
    RoundedCost.value (cost.get row col) ≤ RoundedCost.value bound
  limit : isFinite limit = true → RoundedCost.value limit ≤ RoundedCost.value bound

/-- The reference is not below any cost, nor below a finite limit. -/
theorem bounds_sentinelReference : cost.Bounds limit (cost.sentinelReference limit) := by
  rw [sentinelReference]
  split_ifs with limited
  · obtain ⟨finite, left, right⟩ := CostNumber.larger_spec cost.isFinite_maxCost limited
    exact ⟨finite, fun row col => (cost.value_le_maxCost row col).trans left, fun _ => right⟩
  · exact ⟨cost.isFinite_maxCost, cost.value_le_maxCost, fun limited' => (limited limited').elim⟩

end

end CostMatrix

/-! ## Above the reference -/

namespace Binary64

variable {x y : Float}

/-- One more than twice the magnitude of a number is above it, unless it is too large. -/
theorem value_lt_double_magnitude (finite : x.isFinite = true)
    (sum : (x.abs * Float.ofNat 2 + Float.ofNat 1).isFinite = true) :
    value x < value (x.abs * Float.ofNat 2 + Float.ofNat 1) := by
  obtain ⟨finite', magnitude⟩ := abs_value finite
  have double := isFinite_of_add isFinite_one sum
  have doubled : value (x.abs * Float.ofNat 2) = 2 * |value x| := by
    rw [value_double finite' double, magnitude]
  rcases eq_or_ne (value x) 0 with zero | nonzero
  · -- Nothing is rounded, and the one is the difference.
    have whole : value (x.abs * Float.ofNat 2) = (0 : ℤ) := by
      rw [doubled, zero, abs_zero, mul_zero, Int.cast_zero]
    have one : value (Float.ofNat 1) = (1 : ℤ) := by rw [value_one, Int.cast_one]
    rw [(add_whole double isFinite_one whole one (by norm_num)).2, zero]
    norm_num
  · -- The one may be absorbed, but the double is larger already.
    have above := value_le_add double isFinite_one (by rw [doubled]; positivity)
      (by rw [value_one]; norm_num) sum
    calc value x
      _ ≤ |value x| := le_abs_self _
      _ < 2 * |value x| := lt_mul_of_one_lt_left (abs_pos.mpr nonzero) one_lt_two
      _ ≤ value (x.abs * Float.ofNat 2 + Float.ofNat 1) := doubled ▸ above

theorem isFinite_clampFinite (y : Float) : (CostNumber.clampFinite y).isFinite = true := by
  change (if y.isFinite then y else largest).isFinite = true
  split_ifs with finite
  · exact finite
  · exact isFinite_largest

/-- Only the largest number is not below a clamped number above it. -/
theorem lt_clampFinite_iff (finite : x.isFinite = true)
    (below : y.isFinite = true → value x < value y) :
    x < CostNumber.clampFinite y ↔ x ≠ largest := by
  have order : x < CostNumber.clampFinite y ↔ value x < value (CostNumber.clampFinite y) :=
    RoundedCost.lt_iff finite (isFinite_clampFinite y)
  rw [order]
  constructor
  · rintro above rfl
    exact (above.trans_le (value_le_largest (isFinite_clampFinite y))).false
  · intro other
    change value x < value (if y.isFinite then y else largest)
    split_ifs with finite'
    · exact below finite'
    · exact value_lt_largest finite other

end Binary64

namespace CostMatrix

/-- The sentinel is finite. It is above every cost and above a finite limit, unless that cost or
limit is the largest number itself. -/
theorem sentinelCost_dominates (cost : CostMatrix Float) (limit : Float) :
    (cost.sentinelCost limit).isFinite = true ∧
      (∀ row col, cost.get row col < cost.sentinelCost limit ↔
        cost.get row col ≠ Binary64.largest) ∧
      (limit.isFinite = true → (limit < cost.sentinelCost limit ↔ limit ≠ Binary64.largest)) := by
  obtain ⟨finite, entry, above⟩ := cost.bounds_sentinelReference limit
  refine ⟨Binary64.isFinite_clampFinite _, fun row col => ?_, fun limited => ?_⟩
  · exact Binary64.lt_clampFinite_iff (cost.isFinite_get row col) fun sum =>
      (entry row col).trans_lt (Binary64.value_lt_double_magnitude finite sum)
  · exact Binary64.lt_clampFinite_iff limited fun sum =>
      (above limited).trans_lt (Binary64.value_lt_double_magnitude finite sum)

/-- Above the largest number there is nothing left for a sentinel. -/
theorem sentinelCost_of_largest :
    let cost : CostMatrix Float :=
      { rows := 1, cols := 2, data := #[Binary64.largest, Float.ofNat 0]
        rows_pos := by decide, cols_pos := by decide, size_eq := rfl
        size_lt := by decide, finite := by decide +kernel }
    ¬ ∀ row col, cost.get row col < cost.sentinelCost Binary64.infinity := by
  decide +kernel

end CostMatrix

end LinearAssignment
