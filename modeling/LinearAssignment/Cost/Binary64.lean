import LinearAssignment.Cost

/-! # Costs in 64-bit floating point

The instance with which the solver is run: every operation is rounded by itself, to nearest and
with ties to even.
-/

namespace LinearAssignment

namespace Binary64

/-- Positive infinity. -/
def infinity : Float := Float.ofBits 0x7FF0000000000000

/-- The largest finite number, 2¹⁰²⁴ - 2⁹⁷¹. -/
def largest : Float := Float.ofBits 0x7FEFFFFFFFFFFFFF

end Binary64

instance Binary64.costNumber : CostNumber Float where
  decLt := inferInstance
  decLe := inferInstance
  ofNat := Float.ofNat
  infinity := Binary64.infinity
  billionth := 1e-9
  magnitude := Float.abs
  isFinite := Float.isFinite
  isNaN := Float.isNaN
  clampFinite x := if x.isFinite then x else Binary64.largest

end LinearAssignment
