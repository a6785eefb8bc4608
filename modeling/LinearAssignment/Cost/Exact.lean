import LinearAssignment.Cost

/-! # Exact costs

The rationals between two infinite ends: the arithmetic in which the solver's answers are optimal
without any tolerance. On finite costs every operation is the exact one. The ends only bound the
order; where an operation on them has no sensible value, the left operand decides.
-/

namespace LinearAssignment

/-- A rational cost, or one of the two ends of the order. -/
inductive ExactCost where
  | bottom
  | finite (value : Rat)
  | top
deriving DecidableEq, Repr, Inhabited

namespace ExactCost

/-- Addition; an end absorbs what is added to it. -/
def add : ExactCost → ExactCost → ExactCost
  | finite a, finite b => finite (a + b)
  | finite _, b => b
  | a, _ => a

/-- Change of sign, which exchanges the ends. -/
def neg : ExactCost → ExactCost
  | bottom => top
  | finite a => finite (-a)
  | top => bottom

/-- The end on the side of a rational's sign, or zero. -/
def scaled (sign : Rat) : ExactCost :=
  if sign = 0 then finite 0 else if sign < 0 then bottom else top

/-- Multiplication; an infinite product has the sign of its factors. -/
def mul : ExactCost → ExactCost → ExactCost
  | finite a, finite b => finite (a * b)
  | finite a, top => scaled a
  | finite a, bottom => scaled (-a)
  | top, finite b => scaled b
  | bottom, finite b => scaled (-b)
  | top, b => b
  | bottom, b => neg b

/-- Division; a finite cost divided by an end vanishes. -/
def div : ExactCost → ExactCost → ExactCost
  | finite a, finite b => finite (a / b)
  | finite _, _ => finite 0
  | a, finite b => if b < 0 then neg a else a
  | a, _ => a

/-- The strict order, as a test. -/
def lt : ExactCost → ExactCost → Bool
  | finite a, finite b => decide (a < b)
  | bottom, bottom => false
  | bottom, _ => true
  | finite _, top => true
  | _, _ => false

/-- Magnitude. -/
def magnitude : ExactCost → ExactCost
  | finite a => finite (if a < 0 then -a else a)
  | _ => top

/-- Whether a cost is a rational. -/
def isFinite : ExactCost → Bool
  | finite _ => true
  | _ => false

instance costNumber : CostNumber ExactCost where
  add := add
  sub a b := add a (neg b)
  mul := mul
  div := div
  neg := neg
  beq a b := decide (a = b)
  lt a b := lt a b = true
  le a b := lt b a = false
  decLt _ _ := inferInstanceAs (Decidable (_ = true))
  decLe _ _ := inferInstanceAs (Decidable (_ = false))
  ofNat n := finite n
  infinity := top
  billionth := finite (1 / 1000000000)
  magnitude := magnitude
  isFinite := isFinite
  isNaN _ := false
  clampFinite a := a

end ExactCost

end LinearAssignment
