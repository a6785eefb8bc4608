import LinearAssignment.Cost
import LinearAssignment.Refusal

/-! # Options of a solve

Two of the options are choices among named alternatives, and one is a limit on the cost of a pair,
which is infinite unless it is set.
-/

namespace LinearAssignment

/-- The dual starting point of a solve. -/
inductive DualStart where
  /-- All potentials are zero and every row is matched by an augmentation. -/
  | zero
  /-- Row potentials are the row minima, and rows claim columns greedily where they attain them. -/
  | rowReduction
deriving DecidableEq, Repr

/-- How a finite cost limit takes part in a solve. -/
inductive LimitStrategy where
  /-- Optimise without the limit, then drop the pairs above it. -/
  | postFilter
  /-- Let a row and a column stay open together at the price of the limit. -/
  | augmented
deriving DecidableEq, Repr

/-- The options of a solve. -/
structure Options (κ : Type) [CostNumber κ] where
  /-- Whether a rectangular matrix is extended to a square one. -/
  extendCost : Bool := false
  /-- No retained pair costs more than this. -/
  costLimit : κ := CostNumber.infinity
  initialization : DualStart := .rowReduction
  limitStrategy : LimitStrategy := .postFilter
  /-- Whether a certificate of optimality is attached to the answer. -/
  verify : Bool := false

/-! ## Names -/

namespace DualStart

/-- The name under which a starting point is written and read. -/
def name : DualStart → String
  | zero => "zero"
  | rowReduction => "row_reduction"

/-- All starting points. -/
def all : List DualStart := [zero, rowReduction]

/-- All names. -/
def names : List String := all.map name

end DualStart

namespace LimitStrategy

/-- The name under which a strategy is written and read. -/
def name : LimitStrategy → String
  | postFilter => "post_filter"
  | augmented => "augmented"

/-- All strategies. -/
def all : List LimitStrategy := [postFilter, augmented]

/-- All names. -/
def names : List String := all.map name

end LimitStrategy

/-- The refusal of a parameter value that is none of the listed ones. -/
def invalidChoice {κ : Type} (parameter value : String) (options : List String) :
    Refusal κ :=
  .parameter parameter (value ++ ". Valid options: " ++ ", ".intercalate options)

/-- The starting point of a name. -/
def DualStart.ofName {κ : Type} (name : String) :
    Except (Refusal κ) DualStart :=
  match all.find? fun choice => choice.name == name with
  | some choice => .ok choice
  | none => .error (invalidChoice "initialization" name names)

/-- The strategy of a name. -/
def LimitStrategy.ofName {κ : Type} (name : String) :
    Except (Refusal κ) LimitStrategy :=
  match all.find? fun choice => choice.name == name with
  | some choice => .ok choice
  | none => .error (invalidChoice "limit_strategy" name names)

namespace Options

variable {κ : Type} [CostNumber κ]

/-- Options agree when all fields do; the limits are compared as costs. -/
instance agreement : BEq (Options κ) where
  beq a b :=
    a.extendCost == b.extendCost && a.costLimit == b.costLimit &&
      decide (a.initialization = b.initialization) && decide (a.limitStrategy = b.limitStrategy) &&
      a.verify == b.verify

/-- A limit must be a finite cost or positive infinity. -/
def check (options : Options κ) : Except (Refusal κ) Unit :=
  if CostNumber.isNaN options.costLimit then
    .error (.parameter "cost_limit" "must not be NaN")
  else if options.costLimit == -CostNumber.infinity then
    .error (.parameter "cost_limit" "must be a finite number or +inf")
  else .ok ()

/-- Whether the limit can exclude any pair at all. -/
def isLimited (options : Options κ) : Bool := CostNumber.isFinite options.costLimit

end Options

end LinearAssignment
