import LinearAssignment.Cost.Binary64
import LinearAssignment.Decimal.Numeral
import LinearAssignment.Solver

/-! # Options as named parameters

The options of a handle can be listed, read and set as texts under their names. A text that is not
a value of its parameter is refused and changes nothing.
-/

namespace LinearAssignment

/-- The kind of values that a parameter takes. -/
inductive ParameterKind where
  | float
  | boolean
  /-- One of a list of names. -/
  | enumeration (names : List String)
deriving DecidableEq, Repr

/-- Bounds on the values of a parameter. -/
structure ParameterBounds where
  min : Option Float := none
  max : Option Float := none
  allowedValues : Option (List String) := none

/-- A parameter with its present value. -/
structure Parameter where
  name : String
  value : String
  valueType : ParameterKind
  constraints : Option ParameterBounds := none

/-- The options that can be set by name, in the order in which they are listed. -/
inductive ParameterName where
  | extendCost
  | costLimit
  | initialization
  | limitStrategy
  | verify
deriving DecidableEq, Repr

namespace ParameterName

/-- All parameters in their order. -/
def all : List ParameterName := [extendCost, costLimit, initialization, limitStrategy, verify]

/-- The name under which a parameter is listed. -/
def text : ParameterName → String
  | extendCost => "extend_cost"
  | costLimit => "cost_limit"
  | initialization => "initialization"
  | limitStrategy => "limit_strategy"
  | verify => "verify"

/-- The parameter of a name. -/
def ofText? (name : String) : Option ParameterName :=
  all.find? fun parameter => parameter.text == name

end ParameterName

/-! ## Values as texts -/

/-- A truth value as a text. -/
def booleanText (value : Bool) : String := if value then "true" else "false"

/-- The truth value of a text. -/
def booleanOfText (parameter : ParameterName) (value : String) :
    Except (Refusal Float) Bool :=
  if value = "true" then .ok true
  else if value = "false" then .ok false
  else .error (invalidChoice parameter.text value ["true", "false"])

/-- The cost limit of a text: a number, or one of three words for no limit. -/
def limitOfText (value : String) : Except (Refusal Float) Float :=
  if value ∈ ["inf", "+inf", "none"] then .ok CostNumber.infinity
  else match Decimal.parse? value with
    | some limit => .ok limit
    | none => .error (.parameter ParameterName.costLimit.text (value ++ " is not a number"))

namespace Options

/-- The value of a parameter as a text. -/
def parameterText (options : Options Float) : ParameterName → String
  | .extendCost => booleanText options.extendCost
  | .costLimit => costText options.costLimit
  | .initialization => options.initialization.name
  | .limitStrategy => options.limitStrategy.name
  | .verify => booleanText options.verify

/-- The options with one parameter set from a text. A cost limit must also be valid. -/
def withParameter (options : Options Float) (parameter : ParameterName) (value : String) :
    Except (Refusal Float) (Options Float) :=
  match parameter with
  | .extendCost => do return { options with extendCost := ← booleanOfText parameter value }
  | .costLimit => do
    let candidate := { options with costLimit := ← limitOfText value }
    candidate.check
    return candidate
  | .initialization => do
    return { options with initialization := ← DualStart.ofName value }
  | .limitStrategy => do return { options with limitStrategy := ← LimitStrategy.ofName value }
  | .verify => do return { options with verify := ← booleanOfText parameter value }

end Options

namespace Solver

/-- One parameter as it is listed. -/
def listed (solver : Solver Float) (parameter : ParameterName) : Parameter :=
  let plain (valueType : ParameterKind) : Parameter :=
    { name := parameter.text, value := solver.options.parameterText parameter, valueType }
  let choice (names : List String) : Parameter :=
    { plain (.enumeration names) with constraints := some { allowedValues := some names } }
  match parameter with
  | .extendCost => plain .boolean
  | .costLimit => plain .float
  | .initialization => choice DualStart.names
  | .limitStrategy => choice LimitStrategy.names
  | .verify => plain .boolean

/-- All parameters with their present values. -/
def parameters (solver : Solver Float) : List Parameter :=
  ParameterName.all.map solver.listed

/-- Set a parameter by name. A refusal leaves the handle as it was. -/
def set (solver : Solver Float) (name value : String) :
    Except (Refusal Float) Unit × Solver Float :=
  match ParameterName.ofText? name with
  | none =>
    (.error (.parameter name ("unknown parameter. Valid parameters: " ++
      ", ".intercalate (ParameterName.all.map ParameterName.text))), solver)
  | some parameter =>
    match solver.options.withParameter parameter value with
    | .error problem => (.error problem, solver)
    | .ok options => (.ok (), { solver with options })

/-- The present value of a parameter, if there is one of that name. -/
def get? (solver : Solver Float) (name : String) : Option String :=
  (solver.parameters.find? fun parameter => parameter.name == name).map (·.value)

end Solver

/-! ## Description -/

/-- The identifier of an algorithm. -/
structure SolverId where
  name : String
deriving DecidableEq, Repr

/-- The asymptotic costs of an algorithm. -/
structure Complexity where
  timeComplexity : String
  spaceComplexity : String
  bestCase : String
  worstCase : String
deriving DecidableEq, Repr

/-- What an algorithm says about itself. -/
structure Description where
  id : SolverId
  name : String
  description : String
  complexity : Complexity
deriving DecidableEq, Repr

/-- What the solver says about itself. -/
def Solver.description : Description where
  id := ⟨"lapjv"⟩
  name := "Jonker-Volgenant Linear Assignment"
  description :=
    "Shortest augmenting path solver for the rectangular linear assignment problem. " ++
    "Maintains row and column potentials, grows the matching one Dijkstra search at a " ++
    "time, pads rectangular input to square and drops pairs above the cost limit."
  complexity :=
    { timeComplexity := "O(n^3)", spaceComplexity := "O(n^2)"
      bestCase := "O(n^2)", worstCase := "O(n^3)" }

end LinearAssignment
