import LinearAssignment.Cost
import Mathlib.Algebra.Order.Field.Basic
import Mathlib.Algebra.Order.Ring.Rat
import Mathlib.Data.List.Induction
import Mathlib.Tactic.Linarith
import Mathlib.Tactic.Ring
import Mathlib.Tactic.SplitIfs

/-! # Arithmetic that rounds

Rounded arithmetic is close to that of the rationals as long as nothing gets too large: a sum or a
difference within some range is finite, and off by no more than a fixed error, and so are the double
and the half of a cost. The order of finite costs is not rounded at all.
-/

namespace LinearAssignment

open CostNumber (infinity isFinite ofNat)

/-- Costs whose sums, differences, doubles and halves are rounded. -/
class RoundedCost (κ : Type) [CostNumber κ] where
  /-- The rational that a finite cost is. -/
  value : κ → ℚ
  /-- What lies below this in magnitude is rounded to a finite cost. -/
  range : ℚ
  /-- What rounding changes at most. -/
  error : ℚ
  error_nonneg : 0 ≤ error
  isFinite_zero : isFinite (ofNat 0 : κ) = true
  value_zero : value (ofNat 0) = 0
  isFinite_one : isFinite (ofNat 1 : κ) = true
  value_one : value (ofNat 1) = 1
  add {a b : κ} : isFinite a = true → isFinite b = true → |value a + value b| < range →
    isFinite (a + b) = true ∧ |value (a + b) - (value a + value b)| ≤ error
  sub {a b : κ} : isFinite a = true → isFinite b = true → |value a - value b| < range →
    isFinite (a - b) = true ∧ |value (a - b) - (value a - value b)| ≤ error
  double {a : κ} : isFinite a = true → |2 * value a| < range →
    isFinite (a * ofNat 2) = true ∧ |value (a * ofNat 2) - 2 * value a| ≤ error
  half {a : κ} : isFinite a = true →
    isFinite (a / ofNat 2) = true ∧ |value (a / ofNat 2)| ≤ |value a| / 2 + error
  magnitude {a : κ} : isFinite a = true →
    isFinite (CostNumber.magnitude a) = true ∧ value (CostNumber.magnitude a) = |value a|
  clampFinite_of_isFinite {a : κ} : isFinite a = true → CostNumber.clampFinite a = a
  lt_iff {a b : κ} : isFinite a = true → isFinite b = true → (a < b ↔ value a < value b)
  le_iff {a b : κ} : isFinite a = true → isFinite b = true → (a ≤ b ↔ value a ≤ value b)
  value_eq_of_beq {a b : κ} : isFinite a = true → isFinite b = true → (a == b) = true →
    value a = value b
  lt_infinity {a : κ} : isFinite a = true → a < infinity
  not_infinity_lt {a : κ} : isFinite a = true → ¬ infinity < a
  neg_infinity_lt {a : κ} : isFinite a = true → -infinity < a

/-- A finite cost within some distance of a rational. -/
structure Near {κ : Type} [CostNumber κ] [RoundedCost κ] (cost : κ) (exact margin : ℚ) : Prop where
  finite : isFinite cost = true
  close : |RoundedCost.value cost - exact| ≤ margin

namespace Near

open RoundedCost (value range error)

variable {κ : Type} [CostNumber κ] [RoundedCost κ] {a b : κ} {x y margin other : ℚ}

/-- A finite cost is its own value. -/
theorem self (finite : isFinite a = true) : Near a (value a) 0 where
  finite := finite
  close := by rw [sub_self, abs_zero]

theorem mono (near : Near a x margin) (wider : margin ≤ other) : Near a x other :=
  ⟨near.finite, near.close.trans wider⟩

/-- Rounding a sum adds its error to those of the summands. -/
theorem add (near : Near a x margin) (near' : Near b y other)
    (inside : |x + y| + (margin + other) < range κ) :
    Near (a + b) (x + y) (margin + other + error κ) := by
  have close : |(value a - x) + (value b - y)| ≤ margin + other :=
    (abs_add_le _ _).trans (add_le_add near.close near'.close)
  have regroup : value a + value b - (x + y) = (value a - x) + (value b - y) := by ring
  rw [← regroup] at close
  have size : |value a + value b| < range κ := by
    have triangle := abs_add_le (value a + value b - (x + y)) (x + y)
    rw [sub_add_cancel] at triangle
    linarith
  obtain ⟨finite, rounded⟩ := RoundedCost.add near.finite near'.finite size
  refine ⟨finite, ?_⟩
  have triangle := abs_add_le (value (a + b) - (value a + value b)) (value a + value b - (x + y))
  rw [sub_add_sub_cancel] at triangle
  linarith

/-- Rounding a difference adds its error to those of both sides. -/
theorem sub (near : Near a x margin) (near' : Near b y other)
    (inside : |x - y| + (margin + other) < range κ) :
    Near (a - b) (x - y) (margin + other + error κ) := by
  have close : |(value a - x) - (value b - y)| ≤ margin + other :=
    (abs_sub _ _).trans (add_le_add near.close near'.close)
  have regroup : value a - value b - (x - y) = (value a - x) - (value b - y) := by ring
  rw [← regroup] at close
  have size : |value a - value b| < range κ := by
    have triangle := abs_add_le (value a - value b - (x - y)) (x - y)
    rw [sub_add_cancel] at triangle
    linarith
  obtain ⟨finite, rounded⟩ := RoundedCost.sub near.finite near'.finite size
  refine ⟨finite, ?_⟩
  have triangle := abs_add_le (value (a - b) - (value a - value b)) (value a - value b - (x - y))
  rw [sub_add_sub_cancel] at triangle
  linarith

end Near

/-- A finite cost of some size at most. -/
structure Within {κ : Type} [CostNumber κ] [RoundedCost κ] (cost : κ) (size : ℚ) : Prop where
  finite : isFinite cost = true
  abs_le : |RoundedCost.value cost| ≤ size

namespace Within

open RoundedCost (value range error)

variable {κ : Type} [CostNumber κ] [RoundedCost κ] {a b : κ} {size other : ℚ}

theorem nonneg (within : Within a size) : 0 ≤ size := (abs_nonneg _).trans within.abs_le

theorem mono (within : Within a size) (wider : size ≤ other) : Within a other :=
  ⟨within.finite, within.abs_le.trans wider⟩

theorem zero : Within (ofNat 0 : κ) 0 :=
  ⟨RoundedCost.isFinite_zero, by rw [RoundedCost.value_zero, abs_zero]⟩

theorem one : Within (ofNat 1 : κ) 1 :=
  ⟨RoundedCost.isFinite_one, by rw [RoundedCost.value_one, abs_one]⟩

theorem magnitude (within : Within a size) : Within (CostNumber.magnitude a) size := by
  obtain ⟨finite, same⟩ := RoundedCost.magnitude within.finite
  exact ⟨finite, by rw [same, abs_abs]; exact within.abs_le⟩

theorem half (within : Within a size) : Within (a / ofNat 2) (size / 2 + error κ) := by
  obtain ⟨finite, small⟩ := RoundedCost.half within.finite
  exact ⟨finite, small.trans (by linarith [within.abs_le])⟩

theorem add (within : Within a size) (within' : Within b other) (room : size + other < range κ) :
    Within (a + b) (size + other + error κ) := by
  have sum : |value a + value b| ≤ size + other :=
    (abs_add_le _ _).trans (add_le_add within.abs_le within'.abs_le)
  obtain ⟨finite, close⟩ := RoundedCost.add within.finite within'.finite (sum.trans_lt room)
  have triangle := abs_add_le (value (a + b) - (value a + value b)) (value a + value b)
  rw [sub_add_cancel] at triangle
  exact ⟨finite, by linarith⟩

theorem sub (within : Within a size) (within' : Within b other) (room : size + other < range κ) :
    Within (a - b) (size + other + error κ) := by
  have difference : |value a - value b| ≤ size + other :=
    (abs_sub _ _).trans (add_le_add within.abs_le within'.abs_le)
  obtain ⟨finite, close⟩ := RoundedCost.sub within.finite within'.finite (difference.trans_lt room)
  have triangle := abs_add_le (value (a - b) - (value a - value b)) (value a - value b)
  rw [sub_add_cancel] at triangle
  exact ⟨finite, by linarith⟩

/-- Every summand of a sum adds its size and one error. -/
theorem total {costs : List κ} (within : ∀ a ∈ costs, Within a size) (nonneg : 0 ≤ size)
    (room : costs.length * (size + error κ) < range κ) :
    Within (CostNumber.total costs) (costs.length * (size + error κ)) := by
  induction costs using List.reverseRecOn with
  | nil =>
    rw [List.length_nil, Nat.cast_zero, zero_mul]
    exact zero
  | append_singleton rest last ih =>
    have small : 0 ≤ error κ := RoundedCost.error_nonneg
    rw [List.length_append, List.length_singleton] at room ⊢
    push_cast at room ⊢
    have before := ih (fun a member => within a (List.mem_append_left _ member)) (by linarith)
    have sum := before.add (within last (by simp)) (by linarith)
    rw [CostNumber.total, List.foldl_append]
    exact sum.mono (by linarith)

theorem double (within : Within a size) (room : 2 * size < range κ) :
    Within (a * ofNat 2) (2 * size + error κ) := by
  have twice : |2 * value a| ≤ 2 * size := by
    rw [abs_mul, abs_two]
    linarith [within.abs_le]
  obtain ⟨finite, close⟩ := RoundedCost.double within.finite (twice.trans_lt room)
  have triangle := abs_add_le (value (a * ofNat 2) - 2 * value a) (2 * value a)
  rw [sub_add_cancel] at triangle
  exact ⟨finite, by linarith⟩

end Within

namespace CostNumber

variable {κ : Type} [CostNumber κ] [RoundedCost κ] {costs : List κ}

omit [CostNumber κ] [RoundedCost κ] in
/-- What is chosen from some costs in turn is one of them, if the first replaces the start. -/
private theorem foldl_mem {choose : κ → κ → κ} (chooses : ∀ a b, choose a b = a ∨ choose a b = b)
    {start : κ} (replaced : ∀ a ∈ costs, choose start a = a) (nonempty : costs ≠ []) :
    costs.foldl choose start ∈ costs := by
  induction costs using List.reverseRecOn with
  | nil => contradiction
  | append_singleton rest last ih =>
    rw [List.foldl_append, List.foldl_cons, List.foldl_nil]
    rcases eq_or_ne rest [] with rfl | some
    · rw [List.foldl_nil, replaced last (by simp)]
      simp
    · have member := ih (fun a earlier => replaced a (List.mem_append_left _ earlier)) some
      rcases chooses (rest.foldl choose start) last with kept | taken
      · rw [kept]
        exact List.mem_append_left _ member
      · rw [taken]
        simp

omit [CostNumber κ] [RoundedCost κ] in
/-- It ranks above none of them, if no choice ranks above either of the two. -/
private theorem foldl_le (rank : κ → ℚ) {choose : κ → κ → κ}
    (chooses : ∀ a b, choose a b = a ∨ choose a b = b)
    (prefers : ∀ a ∈ costs, ∀ b ∈ costs, rank (choose a b) ≤ rank a ∧ rank (choose a b) ≤ rank b)
    {start : κ} (replaced : ∀ a ∈ costs, choose start a = a) {cost : κ} (member : cost ∈ costs) :
    rank (costs.foldl choose start) ≤ rank cost := by
  induction costs using List.reverseRecOn with
  | nil => cases member
  | append_singleton rest last ih =>
    have inside : ∀ a ∈ rest, a ∈ rest ++ [last] := fun a => List.mem_append_left _
    rw [List.foldl_append, List.foldl_cons, List.foldl_nil]
    rcases eq_or_ne rest [] with rfl | some
    · obtain rfl : cost = last := by simpa using member
      rw [List.foldl_nil, replaced cost (by simp)]
    · have chosen := foldl_mem chooses (fun a earlier => replaced a (inside a earlier)) some
      obtain ⟨left, right⟩ := prefers _ (inside _ chosen) last (by simp)
      rcases List.mem_append.mp member with earlier | final
      · refine left.trans (ih ?_ (fun a earlier => replaced a (inside a earlier)) earlier)
        exact fun a first b second => prefers a (inside a first) b (inside b second)
      · obtain rfl : cost = last := by simpa using final
        exact right

omit [RoundedCost κ] in
private theorem smaller_eq_or (a b : κ) : smaller a b = a ∨ smaller a b = b := by
  rw [smaller]
  split_ifs
  · exact .inr rfl
  · exact .inl rfl

omit [RoundedCost κ] in
private theorem larger_eq_or (a b : κ) : larger a b = a ∨ larger a b = b := by
  rw [larger]
  split_ifs
  · exact .inr rfl
  · exact .inl rfl

private theorem smaller_infinity (finite : ∀ cost ∈ costs, isFinite cost = true) :
    ∀ cost ∈ costs, smaller infinity cost = cost :=
  fun cost member => if_pos (RoundedCost.lt_infinity (finite cost member))

private theorem larger_neg_infinity (finite : ∀ cost ∈ costs, isFinite cost = true) :
    ∀ cost ∈ costs, larger (-infinity) cost = cost :=
  fun cost member => if_pos (RoundedCost.neg_infinity_lt (finite cost member))

/-- The smallest of some finite costs is one of them. -/
theorem minimum_mem (nonempty : costs ≠ []) (finite : ∀ cost ∈ costs, isFinite cost = true) :
    minimum costs ∈ costs :=
  foldl_mem smaller_eq_or (smaller_infinity finite) nonempty

/-- The largest of some finite costs is one of them. -/
theorem maximum_mem (nonempty : costs ≠ []) (finite : ∀ cost ∈ costs, isFinite cost = true) :
    maximum costs ∈ costs :=
  foldl_mem larger_eq_or (larger_neg_infinity finite) nonempty

/-- The larger of two finite costs is finite and not below either. -/
theorem larger_spec {a b : κ} (finite : isFinite a = true) (finite' : isFinite b = true) :
    isFinite (larger a b) = true ∧ RoundedCost.value a ≤ RoundedCost.value (larger a b) ∧
      RoundedCost.value b ≤ RoundedCost.value (larger a b) := by
  rw [larger]
  split_ifs with below
  · exact ⟨finite', ((RoundedCost.lt_iff finite finite').mp below).le, le_rfl⟩
  · rw [RoundedCost.lt_iff finite finite', not_lt] at below
    exact ⟨finite, le_rfl, below⟩

/-- No finite cost is above the largest of some. -/
theorem value_le_maximum (finite : ∀ cost ∈ costs, isFinite cost = true) {cost : κ}
    (member : cost ∈ costs) : RoundedCost.value cost ≤ RoundedCost.value (maximum costs) := by
  refine neg_le_neg_iff.mp (foldl_le (fun a => -RoundedCost.value a) larger_eq_or
    (fun a first b second => ?_) (larger_neg_infinity finite) member)
  obtain ⟨_, left, right⟩ := larger_spec (finite a first) (finite b second)
  exact ⟨neg_le_neg left, neg_le_neg right⟩

/-- No finite cost is below the smallest of some. -/
theorem value_minimum_le (finite : ∀ cost ∈ costs, isFinite cost = true) {cost : κ}
    (member : cost ∈ costs) : RoundedCost.value (minimum costs) ≤ RoundedCost.value cost := by
  refine foldl_le RoundedCost.value smaller_eq_or (fun a first b second => ?_)
    (smaller_infinity finite) member
  rw [smaller]
  split_ifs with below
  · exact ⟨((RoundedCost.lt_iff (finite b second) (finite a first)).mp below).le, le_rfl⟩
  · rw [RoundedCost.lt_iff (finite b second) (finite a first), not_lt] at below
    exact ⟨le_rfl, below⟩

end CostNumber

end LinearAssignment
