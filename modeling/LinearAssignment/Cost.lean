/-! # Arithmetic on costs

The solver adds, subtracts and compares costs and asks of them nothing else. `CostNumber` lists
these operations without any law, so that every definition of the library can be read twice: with
the rounded arithmetic of 64-bit floating point, where few laws hold, and with exact rationals
between two infinite ends, where all of them do.
-/

namespace LinearAssignment

/-- The operations on costs. No law is asked for, because rounded arithmetic satisfies few. -/
class CostNumber (κ : Type) extends Add κ, Sub κ, Mul κ, Div κ, Neg κ, BEq κ, LT κ, LE κ where
  /-- The strict order is a test. -/
  decLt (a b : κ) : Decidable (a < b)
  /-- The weak order is a test. -/
  decLe (a b : κ) : Decidable (a ≤ b)
  /-- The cost nearest to a natural number. -/
  ofNat : Nat → κ
  /-- The top of the order, above every finite cost. -/
  infinity : κ
  /-- The cost nearest to one part in 10⁹. -/
  billionth : κ
  /-- The magnitude of a cost. -/
  magnitude : κ → κ
  /-- Whether a cost is an ordinary number, neither infinite nor undefined. -/
  isFinite : κ → Bool
  /-- Whether a cost is the result of an undefined operation. -/
  isNaN : κ → Bool
  /-- A finite cost itself; for one above all of them the largest finite cost, if there is one. -/
  clampFinite : κ → κ

instance CostNumber.decidableLt {κ : Type} [CostNumber κ] (a b : κ) : Decidable (a < b) :=
  CostNumber.decLt a b

instance CostNumber.decidableLe {κ : Type} [CostNumber κ] (a b : κ) : Decidable (a ≤ b) :=
  CostNumber.decLe a b

namespace CostNumber

variable {κ : Type} [CostNumber κ]

/-- The larger of two costs; the first of two that compare equal. -/
def larger (a b : κ) : κ := if a < b then b else a

/-- The smaller of two costs; the first of two that compare equal. -/
def smaller (a b : κ) : κ := if b < a then b else a

/-- The largest of some costs, below every finite cost if there are none. -/
def maximum (costs : List κ) : κ := costs.foldl larger (-infinity)

/-- The smallest of some costs, above every finite cost if there are none. -/
def minimum (costs : List κ) : κ := costs.foldl smaller infinity

/-- The sum of some costs, added from zero in the order given: rounding makes the order matter. -/
def total (costs : List κ) : κ := costs.foldl (· + ·) (ofNat 0)

end CostNumber

end LinearAssignment
