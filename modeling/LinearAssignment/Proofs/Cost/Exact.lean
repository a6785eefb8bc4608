import LinearAssignment.Cost.Exact
import Mathlib.Algebra.BigOperators.Group.List.Basic
import Mathlib.Algebra.Order.Ring.Rat
import Mathlib.Data.List.Induction
import Mathlib.Tactic.Linarith

/-! # Exact costs as rationals

On finite costs the operations and the order are those of the rationals; infinity is above all of
them. These lemmas carry a statement about exact costs over to the rationals, where it is proved.
-/

namespace LinearAssignment.ExactCost

open CostNumber (billionth infinity larger maximum minimum ofNat smaller total)

/-- The rational that a finite cost is. -/
def value : ExactCost → ℚ
  | finite a => a
  | _ => 0

@[simp] theorem value_finite (a : ℚ) : (finite a).value = a := rfl

theorem eq_finite_value {a : ExactCost} (rational : CostNumber.isFinite a = true) :
    a = finite a.value := by
  cases a with
  | bottom => contradiction
  | finite a => rfl
  | top => contradiction

/-! ## Operations -/

@[simp] theorem finite_add (a b : ℚ) : finite a + finite b = finite (a + b) := rfl

@[simp] theorem finite_sub (a b : ℚ) : finite a - finite b = finite (a - b) :=
  congrArg finite (sub_eq_add_neg a b).symm

@[simp] theorem finite_mul (a b : ℚ) : finite a * finite b = finite (a * b) := rfl

@[simp] theorem neg_finite (a : ℚ) : -finite a = finite (-a) := rfl

@[simp] theorem magnitude_finite (a : ℚ) : CostNumber.magnitude (finite a) = finite |a| := by
  change finite (if a < 0 then -a else a) = finite |a|
  split_ifs with negative
  · rw [abs_of_neg negative]
  · rw [abs_of_nonneg (not_lt.mp negative)]

theorem ofNat_eq (k : ℕ) : (ofNat k : ExactCost) = finite k := rfl

theorem ofNat_zero : (ofNat 0 : ExactCost) = finite 0 := rfl

theorem billionth_eq : (billionth : ExactCost) = finite (1 / 1000000000) := rfl

theorem infinity_eq : (infinity : ExactCost) = top := rfl

private theorem scaled_of_pos {a : ℚ} (positive : 0 < a) : scaled a = top := by
  rw [scaled, if_neg positive.ne', if_neg (not_lt.mpr positive.le)]

theorem top_mul_finite {a : ℚ} (positive : 0 < a) : top * finite a = top := scaled_of_pos positive

theorem finite_mul_top {a : ℚ} (positive : 0 < a) : finite a * top = top := scaled_of_pos positive

/-- A difference with an end in it is an end. -/
theorem isFinite_of_sub {a b : ExactCost} (finite : CostNumber.isFinite (a - b) = true) :
    CostNumber.isFinite a = true ∧ CostNumber.isFinite b = true := by
  cases a with
  | bottom => contradiction
  | finite a =>
    cases b with
    | bottom => contradiction
    | finite b => exact ⟨rfl, rfl⟩
    | top => contradiction
  | top => contradiction

/-- Adding the upper end gives the upper end. -/
theorem add_top {a : ExactCost} (proper : a ≠ bottom) : a + top = top := by
  cases a with
  | bottom => exact absurd rfl proper
  | finite a => rfl
  | top => rfl

theorem add_ne_bottom {a b : ExactCost} (proper : a ≠ bottom) (proper' : b ≠ bottom) :
    a + b ≠ bottom := by
  cases a with
  | bottom => exact absurd rfl proper
  | finite a =>
    cases b with
    | bottom => exact absurd rfl proper'
    | finite b => exact ExactCost.noConfusion
    | top => exact ExactCost.noConfusion
  | top => exact ExactCost.noConfusion

/-! ## Order -/

@[simp] theorem finite_lt_finite {a b : ℚ} : finite a < finite b ↔ a < b :=
  decide_eq_true_iff

@[simp] theorem finite_le_finite {a b : ℚ} : finite a ≤ finite b ↔ a ≤ b := by
  refine decide_eq_false_iff_not.trans ?_
  exact not_lt

@[simp] theorem finite_lt_top (a : ℚ) : finite a < top := rfl

theorem le_iff_not_lt {a b : ExactCost} : a ≤ b ↔ ¬ b < a := Bool.eq_false_iff

theorem le_top (a : ExactCost) : a ≤ top := by
  cases a with
  | bottom => rfl
  | finite a => rfl
  | top => rfl

theorem eq_top_of_le {a : ExactCost} (above : top ≤ a) : a = top := by
  cases a with
  | bottom => contradiction
  | finite a => contradiction
  | top => rfl

@[simp] theorem lt_irrefl (a : ExactCost) : ¬ a < a := by
  cases a with
  | bottom => exact Bool.false_ne_true
  | finite a => simp
  | top => exact Bool.false_ne_true

theorem isFinite_larger {a b : ExactCost} (finite : CostNumber.isFinite a = true)
    (finite' : CostNumber.isFinite b = true) : CostNumber.isFinite (larger a b) = true := by
  rw [larger]
  split_ifs
  · exact finite'
  · exact finite

theorem le_refl (a : ExactCost) : a ≤ a := le_iff_not_lt.mpr (lt_irrefl a)

theorem le_trans {a b c : ExactCost} (first : a ≤ b) (second : b ≤ c) : a ≤ c := by
  rcases a with _ | a | _ <;> rcases b with _ | b | _ <;> rcases c with _ | c | _
  case finite.finite.finite =>
    rw [finite_le_finite] at *
    exact first.trans second
  all_goals first | rfl | contradiction

/-- Below something small is below something large. -/
theorem not_lt_of_lt {a b c : ExactCost} (below : a < b) (notBelow : ¬ c < b) : ¬ c < a := by
  intro smaller
  apply notBelow
  rcases a with _ | a | _ <;> rcases b with _ | b | _ <;> rcases c with _ | c | _
  case finite.finite.finite =>
    rw [finite_lt_finite] at *
    exact smaller.trans below
  all_goals first | rfl | contradiction

theorem lt_of_lt_of_le {a b c : ExactCost} (below : a < b) (above : b ≤ c) : a < c := by
  rcases a with _ | a | _ <;> rcases b with _ | b | _ <;> rcases c with _ | c | _
  case finite.finite.finite =>
    rw [finite_lt_finite] at *
    exact below.trans_le (finite_le_finite.mp above)
  all_goals first | rfl | contradiction

theorem le_of_lt {a b : ExactCost} (below : a < b) : a ≤ b :=
  le_iff_not_lt.mpr (not_lt_of_lt below (lt_irrefl b))

theorem le_larger_left (a b : ExactCost) : a ≤ larger a b := by
  rw [larger]
  split_ifs with below
  · exact le_of_lt below
  · exact le_refl a

theorem le_larger_right (a b : ExactCost) : b ≤ larger a b := by
  rw [larger]
  split_ifs with below
  · exact le_refl b
  · exact le_iff_not_lt.mpr below

/-! ## Folds -/

private theorem minimum_append (costs : List ExactCost) (last : ExactCost) :
    minimum (costs ++ [last]) = smaller (minimum costs) last := by
  simp only [minimum, List.foldl_append, List.foldl_cons, List.foldl_nil]

/-- The smallest of some finite costs is one of them. -/
theorem minimum_finite (values : List ℚ) (nonempty : values ≠ []) :
    ∃ least ∈ values, minimum (values.map finite) = finite least ∧ ∀ a ∈ values, least ≤ a := by
  induction values using List.reverseRecOn with
  | nil => contradiction
  | append_singleton rest last ih =>
    rw [List.map_append, List.map_singleton, minimum_append]
    rcases eq_or_ne rest [] with rfl | some
    · exact ⟨last, by simp, rfl, by simp⟩
    · obtain ⟨least, member, eq, bound⟩ := ih some
      rw [eq, smaller]
      simp only [List.mem_append, List.mem_singleton]
      split_ifs with below
      · rw [finite_lt_finite] at below
        refine ⟨last, .inr rfl, rfl, ?_⟩
        rintro a (old | rfl)
        · exact below.le.trans (bound a old)
        · exact le_rfl
      · rw [finite_lt_finite, not_lt] at below
        refine ⟨least, .inl member, rfl, ?_⟩
        rintro a (old | rfl)
        · exact bound a old
        · exact below

/-- The largest of some costs and a first one is one of them. -/
theorem foldl_larger (costs : List ExactCost) (first : ExactCost) :
    first ≤ costs.foldl larger first ∧ (∀ a ∈ costs, a ≤ costs.foldl larger first) ∧
      (costs.foldl larger first = first ∨ costs.foldl larger first ∈ costs) := by
  induction costs generalizing first with
  | nil => exact ⟨le_refl first, by simp, .inl rfl⟩
  | cons next rest ih =>
    obtain ⟨above, bound, attained⟩ := ih (larger first next)
    rw [List.foldl_cons]
    refine ⟨le_trans (le_larger_left first next) above, ?_, ?_⟩
    · intro a member
      rcases List.mem_cons.mp member with rfl | member
      · exact le_trans (le_larger_right first a) above
      · exact bound a member
    · rcases attained with same | member
      · rw [same, larger]
        split_ifs
        · exact .inr (List.mem_cons_self ..)
        · exact .inl rfl
      · exact .inr (List.mem_cons_of_mem _ member)

/-- The largest of some finite costs is finite. -/
theorem isFinite_maximum (costs : List ExactCost) (nonempty : costs ≠ [])
    (rational : ∀ a ∈ costs, CostNumber.isFinite a = true) :
    CostNumber.isFinite (maximum costs) = true := by
  cases costs with
  | nil => contradiction
  | cons first rest =>
    have start : larger (-infinity) first = first := by
      rw [eq_finite_value (rational first (by simp))]
      rfl
    rw [maximum, List.foldl_cons, start]
    obtain ⟨_, _, same | member⟩ := foldl_larger rest first
    · rw [same]
      exact rational first (List.mem_cons_self ..)
    · exact rational _ (List.mem_cons_of_mem _ member)

/-- Exact totals do not depend on the order of addition. -/
theorem total_finite (values : List ℚ) : total (values.map finite) = finite values.sum := by
  induction values using List.reverseRecOn with
  | nil => rfl
  | append_singleton rest last ih =>
    rw [total] at ih ⊢
    rw [List.map_append, List.foldl_append, ih, List.sum_append]
    simp

/-- A total to which nothing below all finite costs is added is not below them either. -/
theorem total_ne_bottom (costs : List ExactCost) (proper : ∀ a ∈ costs, a ≠ bottom) :
    total costs ≠ bottom := by
  induction costs using List.reverseRecOn with
  | nil => exact ExactCost.noConfusion
  | append_singleton rest last ih =>
    rw [total, List.foldl_append, List.foldl_cons, List.foldl_nil]
    apply add_ne_bottom
    · apply ih
      intro a member
      exact proper a (List.mem_append_left _ member)
    · apply proper
      simp

end LinearAssignment.ExactCost
