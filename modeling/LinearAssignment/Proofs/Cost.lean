import LinearAssignment.Cost.Binary64
import LinearAssignment.Cost.Exact

/-! # Laws that every cost arithmetic keeps

Rounding breaks most laws of arithmetic, but not the few on which the structure of a solution
rests: infinity is not finite, a finite cost is a number, and two numbers can always be compared.
Both instances of `CostNumber` keep them, so what follows from them alone holds with and without
rounding.
-/

namespace LinearAssignment

open CostNumber (infinity isFinite isNaN)

/-- The laws that the structure of a solution rests on. -/
class LawfulCost (κ : Type) [CostNumber κ] : Prop where
  isFinite_infinity : isFinite (infinity : κ) = false
  isNaN_of_isFinite {a : κ} : isFinite a = true → isNaN a = false
  le_of_not_lt {a b : κ} : isNaN a = false → isNaN b = false → ¬ a < b → b ≤ a

/-! ## Binary floating point -/

namespace Binary64

open Float.Model

private theorem swap_lexicographic (e f : Int) (m k : Nat) :
    ((compare e f).then (compare m k)).swap = (compare f e).then (compare k m) := by
  rw [Ordering.swap_then, Std.OrientedOrd.eq_swap (a := f), Std.OrientedOrd.eq_swap (a := k)]

/-- Exchanging the operands of a comparison reverses its outcome. -/
private theorem compare_swap (a b : UnpackedFloat) :
    b.compare a = (a.compare b).map Ordering.swap := by
  rcases a with s | _ | s | ⟨s, m, e, _⟩ <;> rcases b with t | _ | t | ⟨t, k, f, _⟩
  case finite.finite =>
    have swapped := (swap_lexicographic e f m k).symm
    cases s <;> cases t
    case negative.negative => exact congrArg (some ∘ Ordering.swap) swapped
    case positive.positive => exact congrArg some swapped
    all_goals rfl
  all_goals first | cases s <;> cases t <;> rfl | cases s <;> rfl | cases t <;> rfl | rfl

/-- Two values that are numbers have an order. -/
private theorem compare_isSome {a b : UnpackedFloat} (number : a.isNaN = false)
    (number' : b.isNaN = false) : (a.compare b).isSome = true := by
  rcases a with s | _ | s | ⟨s, m, e, _⟩ <;> rcases b with t | _ | t | ⟨t, k, f, _⟩
  all_goals first | contradiction | cases s <;> cases t <;> rfl

private theorem le_of_not_lt {a b : UnpackedFloat} (number : a.isNaN = false)
    (number' : b.isNaN = false) (notBelow : a.lt b = false) : b.le a = true := by
  obtain ⟨order, compared⟩ := Option.isSome_iff_exists.mp (compare_isSome number number')
  rw [UnpackedFloat.lt, compared] at notBelow
  rw [UnpackedFloat.le, compare_swap, compared]
  cases order with
  | lt => contradiction
  | eq => rfl
  | gt => rfl

theorem not_isNaN_of_isFinite {a : UnpackedFloat} (finite : a.isFinite = true) :
    a.isNaN = false := by
  cases a with
  | notANumber => contradiction
  | infinity _ => contradiction
  | zero _ => rfl
  | finite _ _ _ _ => rfl

/-- Rounded arithmetic keeps the laws. -/
instance lawfulCost : LawfulCost Float where
  isFinite_infinity := by decide +kernel
  isNaN_of_isFinite finite := not_isNaN_of_isFinite finite
  le_of_not_lt number number' notBelow :=
    decide_eq_true (le_of_not_lt number number'
      (Bool.eq_false_iff.mpr fun below => notBelow (decide_eq_true below)))

end Binary64

/-! ## Exact costs -/

namespace ExactCost

/-- Exact arithmetic keeps the laws. -/
instance lawfulCost : LawfulCost ExactCost where
  isFinite_infinity := rfl
  isNaN_of_isFinite _ := rfl
  le_of_not_lt _ _ notBelow := Bool.eq_false_iff.mpr notBelow

end ExactCost

end LinearAssignment
