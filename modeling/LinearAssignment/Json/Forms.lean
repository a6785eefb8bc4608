import LinearAssignment.Association
import LinearAssignment.Json.Library
import LinearAssignment.Solver.Parameters

/-! # JSON forms of options and results

Each type that travels as JSON has a shape and conversions from and to the values of that shape, and
any library writes and reads it through these. An unbounded cost limit is written as `null`.
-/

namespace LinearAssignment

open Json (Shape)

/-- A type with a JSON form. -/
class JsonForm (α : Type) where
  shape : Shape
  toValue : α → shape.Value
  ofValue : shape.Value → α

namespace JsonLibrary

variable {α : Type} [JsonForm α]

/-- The text of a value. -/
def write (library : JsonLibrary) (layout : Json.Layout) (value : α) : String :=
  String.ofList (library.print layout 0 (JsonForm.shape α) (JsonForm.toValue value))

/-- Read a whole text as a value. -/
def read (library : JsonLibrary) (α : Type) [JsonForm α] (text : String) :
    Except Json.ReadError α :=
  (library.decode (JsonForm.shape α) text).map JsonForm.ofValue

end JsonLibrary

namespace JsonForm

/-- The JSON form of a value. -/
def write {α : Type} [JsonForm α] (value : α) : Json := (shape α).write (toValue value)

/-- Read a whole text as a value, with the library that runs. -/
def read (α : Type) [JsonForm α] (text : String) : Except Json.ReadError α :=
  Json.library.read α text

end JsonForm

/-! ## Options -/

instance DualStart.jsonForm : JsonForm DualStart where
  shape := .choice (.plain "zero" (.plain "row_reduction" .nil))
  toValue
    | .zero => .inl ()
    | .rowReduction => .inr (.inl ())
  ofValue
    | .inl _ => .zero
    | .inr _ => .rowReduction

instance LimitStrategy.jsonForm : JsonForm LimitStrategy where
  shape := .choice (.plain "post_filter" (.plain "augmented" .nil))
  toValue
    | .postFilter => .inl ()
    | .augmented => .inr (.inl ())
  ofValue
    | .inl _ => .postFilter
    | .inr _ => .augmented

/-- An absent option has its default value. -/
instance Options.jsonForm : JsonForm (Options Float) where
  shape := .partialRecord "SolverConfig"
    (.field "extend_cost" .boolean
    (.field "cost_limit" (.optional .real)
    (.field "initialization" (JsonForm.shape DualStart)
    (.field "limit_strategy" (JsonForm.shape LimitStrategy)
    (.field "verify" .boolean .nil)))))
  toValue options :=
    (some options.extendCost,
      some (if options.isLimited then some options.costLimit else none),
      some (JsonForm.toValue options.initialization),
      some (JsonForm.toValue options.limitStrategy),
      some options.verify, ())
  ofValue
    | (extendCost, costLimit, initialization, limitStrategy, verify, ()) =>
      let standard : Options Float := {}
      { extendCost := extendCost.getD standard.extendCost
        costLimit := match costLimit with
          | none => standard.costLimit
          | some limit => limit.getD CostNumber.infinity
        initialization := (initialization.map JsonForm.ofValue).getD standard.initialization
        limitStrategy := (limitStrategy.map JsonForm.ofValue).getD standard.limitStrategy
        verify := verify.getD standard.verify }

namespace JsonLibrary

/-- Read options from a text and check them. -/
def readOptions (library : JsonLibrary) (text : String) :
    Except (Refusal Float) (Options Float) :=
  match library.read (Options Float) text with
  | .error problem => .error (.text problem)
  | .ok options => options.check.map fun () => options

/-- The indented text of options. -/
def writeOptions (library : JsonLibrary) (options : Options Float) : String :=
  library.write .indented options

end JsonLibrary

/-- Read options from a text and check them, with the library that runs. -/
def Options.ofJson (text : String) : Except (Refusal Float) (Options Float) :=
  Json.library.readOptions text

/-- The indented text of options, from the library that runs. -/
def Options.toJson (options : Options Float) : String := Json.library.writeOptions options

/-! ## Results -/

instance Metrics.jsonForm : JsonForm Metrics where
  shape := .record "SolveMetrics"
    (.field "dimension" .count
    (.field "greedy_assignments" .count
    (.field "augmentations" .count
    (.field "columns_scanned" .count
    (.field "excluded_by_limit" .count
    (.field "execution_time" .duration .nil))))))
  toValue m :=
    (m.dimension, m.greedyAssignments, m.augmentations, m.columnsScanned, m.excludedByLimit,
      m.executionTime, ())
  ofValue
    | (dimension, greedyAssignments, augmentations, columnsScanned, excludedByLimit,
        executionTime, ()) =>
      { dimension, greedyAssignments, augmentations, columnsScanned, excludedByLimit,
        executionTime }

instance Certificate.jsonForm : JsonForm (Certificate Float) where
  shape := .record "OptimalityCertificate"
    (.field "primal_objective" .real
    (.field "dual_objective" .real
    (.field "duality_gap" .real
    (.field "complementary_slackness" .boolean
    (.field "dual_feasible" .boolean
    (.field "tolerance" .real
    (.field "dimension" .count .nil)))))))
  toValue c :=
    (c.primalObjective, c.dualObjective, c.dualityGap, c.complementarySlackness, c.dualFeasible,
      c.tolerance, c.dimension, ())
  ofValue
    | (primalObjective, dualObjective, dualityGap, complementarySlackness, dualFeasible,
        tolerance, dimension, ()) =>
      { primalObjective, dualObjective, dualityGap, complementarySlackness, dualFeasible,
        tolerance, dimension }

instance Assignment.jsonForm : JsonForm (Assignment Float) where
  shape := .record "Assignment"
    (.field "row_to_col" (.list (.optional .count))
    (.field "col_to_row" (.list (.optional .count))
    (.field "total_cost" .real
    (.field "metrics" (JsonForm.shape Metrics)
    (.omittable "certificate" (JsonForm.shape (Certificate Float)) .nil)))))
  toValue a :=
    (a.rowToCol, a.colToRow, a.totalCost, JsonForm.toValue a.metrics,
      a.certificate.map JsonForm.toValue, ())
  ofValue
    | (rowToCol, colToRow, totalCost, metrics, certificate, ()) =>
      { rowToCol, colToRow, totalCost
        metrics := JsonForm.ofValue metrics
        certificate := certificate.map JsonForm.ofValue }

instance Association.jsonForm : JsonForm Association where
  shape := .record "Association"
    (.field "matches" (.list (.pair .count .count))
    (.field "unmatched_rows" (.list .count)
    (.field "unmatched_cols" (.list .count) .nil)))
  toValue a := (a.pairs, a.unmatchedRows, a.unmatchedCols, ())
  ofValue
    | (pairs, unmatchedRows, unmatchedCols, ()) => { pairs, unmatchedRows, unmatchedCols }

/-! ## Descriptions -/

instance SolverId.jsonForm : JsonForm SolverId where
  shape := .text
  toValue id := id.name
  ofValue name := ⟨name⟩

instance ParameterKind.jsonForm : JsonForm ParameterKind where
  shape := .choice (.plain "Float" (.plain "Boolean" (.carrying "Enum" (.list .text) .nil)))
  toValue
    | .float => .inl ()
    | .boolean => .inr (.inl ())
    | .enumeration names => .inr (.inr (.inl names))
  ofValue
    | .inl _ => .float
    | .inr (.inl _) => .boolean
    | .inr (.inr (.inl names)) => .enumeration names

instance ParameterBounds.jsonForm : JsonForm ParameterBounds where
  shape := .record "ParameterConstraints"
    (.field "min" (.optional .real)
    (.field "max" (.optional .real)
    (.field "allowed_values" (.optional (.list .text)) .nil)))
  toValue c := (c.min, c.max, c.allowedValues, ())
  ofValue
    | (min, max, allowedValues, ()) => { min, max, allowedValues }

instance Parameter.jsonForm : JsonForm Parameter where
  shape := .record "AlgorithmParameter"
    (.field "name" .text
    (.field "value" .text
    (.field "value_type" (JsonForm.shape ParameterKind)
    (.field "constraints" (.optional (JsonForm.shape ParameterBounds)) .nil))))
  toValue p :=
    (p.name, p.value, JsonForm.toValue p.valueType, p.constraints.map JsonForm.toValue, ())
  ofValue
    | (name, value, valueType, constraints, ()) =>
      { name, value
        valueType := JsonForm.ofValue valueType
        constraints := constraints.map JsonForm.ofValue }

instance Complexity.jsonForm : JsonForm Complexity where
  shape := .record "AlgorithmComplexity"
    (.field "time_complexity" .text
    (.field "space_complexity" .text
    (.field "best_case" .text
    (.field "worst_case" .text .nil))))
  toValue c := (c.timeComplexity, c.spaceComplexity, c.bestCase, c.worstCase, ())
  ofValue
    | (timeComplexity, spaceComplexity, bestCase, worstCase, ()) =>
      { timeComplexity, spaceComplexity, bestCase, worstCase }

end LinearAssignment
