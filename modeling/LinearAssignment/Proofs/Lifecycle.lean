import LinearAssignment.Proofs.History
import LinearAssignment.Proofs.Refusal

/-! # What a handle keeps

Of everything that has been done with a handle, two things stay visible: its capacity and the
figures of its last successful solve. A ledger lists the matrices that reached the solver since the
handle was made or released, each with the options it was solved under. Capacity is the largest
square among them, whether or not its solve succeeded, and the last figures are those that the
latest of them yields by itself. Requests that are refused earlier leave no trace.
-/

namespace LinearAssignment

/-- Buffers pass their check if they have the lengths of the matrix. -/
theorem Buffers.check_eq_ok_iff {κ : Type} {buffers : Buffers} {rows cols : Nat} :
    buffers.check rows cols = (.ok () : Except (Refusal κ) Unit) ↔
      buffers.x.length = rows ∧ buffers.y.length = cols := by
  rw [check]
  split_ifs with wrongRows wrongCols
  · simp [wrongRows]
  · simp [wrongCols]
  · simp_all

section

variable {κ : Type} [CostNumber κ] {cost : CostMatrix κ} {options : Options κ}
  {workspace : Workspace κ}

/-- The side of the square in which a matrix is solved. -/
def squareSide (cost : CostMatrix κ) (options : Options κ) : Nat :=
  if options.limitStrategy = .augmented ∧ options.isLimited = true then cost.rows + cost.cols
  else max cost.rows cost.cols

/-- The square of a matrix is as wide as both of its sides. -/
theorem sides_le_squareSide (cost : CostMatrix κ) (options : Options κ) :
    cost.rows ≤ squareSide cost options ∧ cost.cols ≤ squareSide cost options := by
  rw [squareSide]
  split_ifs
  · omega
  · omega

/-- The side of the square, unless a matrix is refused before its square is solved. -/
def acceptedSide? (cost : CostMatrix κ) (options : Options κ) : Option Nat :=
  match options.check, SquareProblem.ofCost cost options with
  | .ok (), .ok _ => some (squareSide cost options)
  | _, _ => none

theorem SquareProblem.dimension_of_ofCost {problem : SquareProblem κ}
    (made : ofCost cost options = .ok problem) :
    problem.dimension = squareSide cost options := by
  rw [squareSide]
  obtain ⟨_, ⟨limited, _, rfl⟩ | ⟨unlimited, ⟨square, rfl⟩ | ⟨_, _, rfl⟩⟩⟩ := ofCost_cases made
  · rw [if_pos limited]
    rfl
  · rw [if_neg unlimited]
    exact (max_eq_left square.ge).symm
  · rw [if_neg unlimited]
    rfl

theorem acceptedSide?_eq_some_iff {side : Nat} : acceptedSide? cost options = some side ↔
    options.check = .ok () ∧ ∃ problem, SquareProblem.ofCost cost options = .ok problem ∧
      problem.dimension = side := by
  rw [acceptedSide?]
  cases options.check with
  | error refusal => simp
  | ok _ =>
    cases made : SquareProblem.ofCost cost options with
    | error refusal => simp
    | ok problem => simp [SquareProblem.dimension_of_ofCost made]

/-- A matrix that is refused before its square is solved has no answer. -/
theorem toOption_solve_of_refused (refused : acceptedSide? cost options = none) :
    (solve cost options).toOption = none := by
  cases solved : solve cost options with
  | error refusal => rfl
  | ok answer =>
    obtain ⟨checked, problem, made, _⟩ := solve_eq_ok_iff.mp solved
    rw [acceptedSide?_eq_some_iff.mpr ⟨checked, problem, made, rfl⟩] at refused
    contradiction

/-- A row can only be stranded in a square that is solved. -/
theorem exists_acceptedSide_of_stranded {row : Nat}
    (stranded : solve cost options = .error (.stranded row)) :
    ∃ side, acceptedSide? cost options = some side := by
  obtain ⟨_, _, imposed⟩ | ⟨imposed, _⟩ | ⟨_, ⟨imposed, _⟩ | ⟨_, imposed, _⟩⟩ |
    ⟨problem, _, checked, made, _⟩ := refusal_of_solve stranded
  · contradiction
  · contradiction
  · contradiction
  · contradiction
  · exact ⟨problem.dimension, acceptedSide?_eq_some_iff.mpr ⟨checked, problem, made, rfl⟩⟩

/-- A solve makes room for its square and keeps the room that there was. -/
theorem capacity_solveIn (workspace : Workspace κ) (cost : CostMatrix κ) (options : Options κ) :
    (solveIn workspace cost options).workspace.capacity =
      max workspace.capacity ((acceptedSide? cost options).getD 0) := by
  cases accepted : acceptedSide? cost options with
  | none =>
    rw [Option.getD_none, Nat.max_zero]
    rcases solveIn_cases workspace cost options with ⟨_, same⟩ | ⟨problem, _, checked, made, _⟩
    · rw [same]
    · rw [acceptedSide?_eq_some_iff.mpr ⟨checked, problem, made, rfl⟩] at accepted
      contradiction
  | some side =>
    obtain ⟨checked, problem, made, rfl⟩ := acceptedSide?_eq_some_iff.mp accepted
    rw [solveIn_eq_run_of_ofCost workspace checked made, SquareProblem.run_workspace_capacity,
      Option.getD_some]

end

namespace Solver

/-! ## What an operation asks of the solver -/

/-- A matrix that is handed to the solver, with the options that it is to be solved under. -/
structure Attempt where
  cost : CostMatrix Float
  options : Options Float

/-- The side of the square, unless the attempt is refused before its square is solved. -/
def Attempt.side? (attempt : Attempt) : Option Nat := acceptedSide? attempt.cost attempt.options

/-- The figures of the solve by itself, if it succeeds. -/
def Attempt.metrics? (attempt : Attempt) : Option Metrics :=
  (LinearAssignment.solve attempt.cost attempt.options).toOption.map (·.metrics)

theorem Attempt.metrics?_of_refused {attempt : Attempt} (refused : attempt.side? = none) :
    attempt.metrics? = none := by
  rw [metrics?, toOption_solve_of_refused refused]
  rfl

/-- What an operation hands to the solver of a handle with some options. Buffers of a wrong length,
a frame with an empty side and data that make no matrix are refused before. -/
def Operation.attempt? (options : Options Float) : Operation → Option Attempt
  | .solve cost => some ⟨cost, options⟩
  | .solveIntoBuffers cost buffers =>
    if buffers.x.length = cost.rows ∧ buffers.y.length = cost.cols then some ⟨cost, options⟩
    else none
  | .associate data rows cols threshold =>
    if rows = 0 ∨ cols = 0 then none
    else (CostMatrix.ofData data rows cols).toOption.map (⟨·, options.gated threshold⟩)
  | .set .. | .configure .. | .release | .withCapacity .. => none

/-- Whether a handle begins its life anew: it is released, or made with room for some side. -/
def Operation.renews : Operation → Bool
  | .release | .withCapacity .. => true
  | .solve .. | .solveIntoBuffers .. | .associate .. | .set .. | .configure .. => false

section

variable {solver : Solver Float}

/-- What a handle keeps of a solve under some options. -/
theorem keeps_solveUnder (fits : solver.workspace.Fits) (options : Options Float)
    (cost : CostMatrix Float) :
    (solver.solveUnder options cost).solver.capacity =
        max solver.capacity ((Attempt.side? ⟨cost, options⟩).getD 0) ∧
      (solver.solveUnder options cost).solver.lastMetrics =
        (Attempt.metrics? ⟨cost, options⟩).or solver.lastMetrics := by
  refine ⟨capacity_solveIn solver.workspace cost options, ?_⟩
  have result := (fits.solveIn_eq cost options).1
  rw [Attempt.metrics?, ← result, solveUnder, Solver.solve]
  dsimp only
  cases (solveIn solver.workspace cost options).result with
  | error refusal => rfl
  | ok answer => rfl

/-- A solve of a handle is one under its own options. -/
theorem keeps_solve (fits : solver.workspace.Fits) (cost : CostMatrix Float) :
    (solver.solve cost).solver.capacity =
        max solver.capacity ((Attempt.side? ⟨cost, solver.options⟩).getD 0) ∧
      (solver.solve cost).solver.lastMetrics =
        (Attempt.metrics? ⟨cost, solver.options⟩).or solver.lastMetrics :=
  keeps_solveUnder fits solver.options cost

/-- Setting an option by name is no solve. -/
theorem lastMetrics_set (solver : Solver Float) (name value : String) :
    (solver.set name value).2.lastMetrics = solver.lastMetrics := by
  rw [set]
  cases ParameterName.ofText? name with
  | none => rfl
  | some parameter =>
    dsimp only
    cases solver.options.withParameter parameter value with
    | error refusal => rfl
    | ok options => rfl

/-- What a handle keeps of an operation that does not renew it: room for the square of its attempt,
and the figures of its attempt if there are any. -/
theorem keeps_perform (fits : solver.workspace.Fits) {operation : Operation}
    (goesOn : operation.renews = false) :
    (solver.perform operation).capacity =
        max solver.capacity (((operation.attempt? solver.options).bind Attempt.side?).getD 0) ∧
      (solver.perform operation).lastMetrics =
        ((operation.attempt? solver.options).bind Attempt.metrics?).or solver.lastMetrics := by
  have idle : solver.capacity = max solver.capacity 0 := (Nat.max_zero _).symm
  cases operation with
  | solve cost => exact keeps_solve fits cost
  | solveIntoBuffers cost buffers =>
    rw [perform, Operation.attempt?]
    rcases solver.solveIntoBuffers_cases cost buffers with
      ⟨refusal, refused, same⟩ | ⟨passed, solved⟩
    · have wrong : ¬ (buffers.x.length = cost.rows ∧ buffers.y.length = cost.cols) := by
        intro lengths
        rw [Buffers.check_eq_ok_iff.mpr lengths] at refused
        contradiction
      rw [if_neg wrong, same]
      exact ⟨idle, rfl⟩
    · rw [if_pos (Buffers.check_eq_ok_iff.mp passed), solved]
      exact keeps_solve fits cost
  | associate data rows cols threshold =>
    rw [perform, Operation.attempt?]
    rcases solver.associate_cases data rows cols threshold with
      ⟨oneSided, same⟩ | ⟨sided, ⟨_, refused, same⟩ | ⟨cost, read, solved⟩⟩
    · rw [if_pos oneSided, same]
      exact ⟨idle, rfl⟩
    · rw [if_neg sided, refused, same]
      exact ⟨idle, rfl⟩
    · rw [if_neg sided, read, solved]
      exact keeps_solveUnder fits (solver.options.gated threshold) cost
  | set name value =>
    rw [perform, capacity, workspace_set, lastMetrics_set]
    exact ⟨idle, rfl⟩
  | configure options => exact ⟨idle, rfl⟩
  | release => contradiction
  | withCapacity options dimension => contradiction

end

/-! ## The ledger of a history -/

/-- What has happened to a handle since it was made or released: the side that it was made with room
for, nothing if it has been released, and all attempts since. -/
structure Ledger where
  room : Nat
  attempts : List Attempt

namespace Ledger

/-- The ledger of a handle that is new or has been released. -/
def blank : Ledger := ⟨0, []⟩

/-- Enter an operation of a handle with some options. A handle whose room is refused is not made,
and the one that is there goes on. -/
def record (ledger : Ledger) (options : Options Float) : Operation → Ledger
  | .release => blank
  | .withCapacity _ dimension =>
    match reserve 0 dimension with
    | .ok _ => ⟨dimension, []⟩
    | .error _ => ledger
  | operation => { ledger with
      attempts := ledger.attempts ++ (operation.attempt? options).toList }

/-- Enter the operations of a history, one after the other, as a handle goes through them. -/
def recordAll (ledger : Ledger) (solver : Solver Float) : List Operation → Ledger
  | [] => ledger
  | operation :: rest =>
    (ledger.record solver.options operation).recordAll (solver.perform operation) rest

/-- The largest of the initial room and all squares that were solved. -/
def capacity (ledger : Ledger) : Nat :=
  (ledger.attempts.filterMap Attempt.side?).foldl max ledger.room

/-- The figures of the latest attempt that succeeded. -/
def lastMetrics (ledger : Ledger) : Option Metrics :=
  (ledger.attempts.filterMap Attempt.metrics?).getLast?

/-- A ledger that tells the capacity and the figures of a handle, whose workspace fits. -/
structure Describes (ledger : Ledger) (solver : Solver Float) : Prop where
  fits : solver.workspace.Fits
  capacity : solver.capacity = ledger.capacity
  lastMetrics : solver.lastMetrics = ledger.lastMetrics

theorem describes_blank {solver : Solver Float} (bare : solver.workspace = .empty)
    (unsolved : solver.lastMetrics = none) : blank.Describes solver where
  fits := by
    rw [bare]
    exact Workspace.fits_empty
  capacity := by
    rw [Solver.capacity, bare]
    rfl
  lastMetrics := unsolved

variable {ledger : Ledger}

/-- An operation that does not renew the handle enters its attempt. -/
theorem record_of_goesOn (options : Options Float) {operation : Operation}
    (goesOn : operation.renews = false) :
    ledger.record options operation =
      ⟨ledger.room, ledger.attempts ++ (operation.attempt? options).toList⟩ := by
  cases operation with
  | release => contradiction
  | withCapacity options dimension => contradiction
  | _ => rfl

/-- One more attempt raises the capacity to its side. -/
theorem capacity_append (room : Nat) (attempts : List Attempt) (attempt? : Option Attempt) :
    capacity ⟨room, attempts ++ attempt?.toList⟩ =
      max (capacity ⟨room, attempts⟩) ((attempt?.bind Attempt.side?).getD 0) := by
  rw [capacity, capacity, List.filterMap_append, List.foldl_append]
  cases attempt? with
  | none => exact (Nat.max_zero _).symm
  | some attempt =>
    rw [Option.toList_some, Option.bind_some]
    cases side : attempt.side? with
    | none =>
      rw [List.filterMap_cons_none side]
      exact (Nat.max_zero _).symm
    | some side' =>
      rw [List.filterMap_cons_some side]
      rfl

/-- One more attempt shows its figures if it succeeds, and else those from before. -/
theorem lastMetrics_append (room : Nat) (attempts : List Attempt) (attempt? : Option Attempt) :
    lastMetrics ⟨room, attempts ++ attempt?.toList⟩ =
      (attempt?.bind Attempt.metrics?).or (lastMetrics ⟨room, attempts⟩) := by
  rw [lastMetrics, lastMetrics, List.filterMap_append, List.getLast?_append]
  cases attempt? with
  | none => rfl
  | some attempt =>
    rw [Option.toList_some, Option.bind_some]
    cases metrics : attempt.metrics? with
    | none =>
      rw [List.filterMap_cons_none metrics]
      rfl
    | some figures =>
      rw [List.filterMap_cons_some metrics]
      rfl

/-- An operation leaves the ledger telling what the handle shows. -/
theorem Describes.perform {solver : Solver Float} (describes : ledger.Describes solver)
    (operation : Operation) :
    (ledger.record solver.options operation).Describes (solver.perform operation) := by
  have fits := fits_perform describes.fits operation
  cases renews : operation.renews with
  | false =>
    obtain ⟨capacity, lastMetrics⟩ := keeps_perform describes.fits renews
    rw [record_of_goesOn solver.options renews]
    refine ⟨fits, ?_, ?_⟩
    · rw [capacity, capacity_append, describes.capacity]
    · rw [lastMetrics, lastMetrics_append, describes.lastMetrics]
  | true =>
    cases operation with
    | release => exact describes_blank rfl rfl
    | withCapacity options dimension =>
      rw [Solver.perform, Solver.withCapacity, Workspace.withCapacity] at fits ⊢
      rw [record]
      cases room : reserve 0 dimension with
      | error cause => exact describes
      | ok granted =>
        rw [room] at fits
        exact ⟨fits, (reserve_eq_ok_iff.mp room).1.trans (Nat.zero_max dimension), rfl⟩
    | solve | solveIntoBuffers | associate | set | configure => contradiction

theorem Describes.after {solver : Solver Float} (describes : ledger.Describes solver)
    (history : List Operation) :
    (ledger.recordAll solver history).Describes (solver.after history) := by
  induction history generalizing ledger solver with
  | nil => exact describes
  | cons operation rest ih => exact ih (describes.perform operation)

end Ledger

/-- What a handle shows after any history: as capacity the largest of the room that it was made with
and the squares solved since it was made or released, and as figures those of the latest success
since. An operation that hands nothing to the solver, or only what is refused before its square is
solved, changes neither; an attempt that strands a row leaves the figures. -/
theorem capacity_lastMetrics_after (options : Options Float) (history : List Operation) :
    let solver := (ofOptions options).after history
    let ledger := Ledger.blank.recordAll (ofOptions options) history
    (solver.capacity = ledger.capacity ∧ solver.lastMetrics = ledger.lastMetrics) ∧
      ∀ operation, operation.renews = false →
        ((operation.attempt? solver.options).bind Attempt.side? = none →
          (solver.perform operation).capacity = solver.capacity ∧
            (solver.perform operation).lastMetrics = solver.lastMetrics) ∧
        ∀ attempt, operation.attempt? solver.options = some attempt → ∀ row,
          LinearAssignment.solve attempt.cost attempt.options = .error (.stranded row) →
            (∃ side, attempt.side? = some side ∧
              (solver.perform operation).capacity = max solver.capacity side) ∧
            (solver.perform operation).lastMetrics = solver.lastMetrics := by
  intro solver ledger
  have describes : ledger.Describes solver :=
    (Ledger.describes_blank rfl rfl).after history
  refine ⟨⟨describes.capacity, describes.lastMetrics⟩, fun operation goesOn => ?_⟩
  obtain ⟨capacity, lastMetrics⟩ := keeps_perform describes.fits goesOn
  refine ⟨fun refused => ?_, fun attempt handed row stranded => ?_⟩
  · have failed : (operation.attempt? solver.options).bind Attempt.metrics? = none := by
      cases handed : operation.attempt? solver.options with
      | none => rfl
      | some attempt =>
        rw [handed] at refused
        exact Attempt.metrics?_of_refused refused
    rw [capacity, lastMetrics, refused, failed]
    exact ⟨Nat.max_zero _, rfl⟩
  · obtain ⟨side, accepted⟩ := exists_acceptedSide_of_stranded stranded
    rw [handed] at capacity lastMetrics
    refine ⟨⟨side, accepted, ?_⟩, ?_⟩
    · rw [capacity, Option.bind_some, Attempt.side?, accepted]
      rfl
    · rw [lastMetrics, Option.bind_some, Attempt.metrics?, stranded]
      rfl

end Solver

end LinearAssignment
