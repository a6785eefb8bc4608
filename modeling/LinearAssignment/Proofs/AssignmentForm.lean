import LinearAssignment.Proofs.Json.Shape
import LinearAssignment.Proofs.Overflow

/-! # Assignments as JSON

With every lawful library that keeps numbers, what a solve answers is read back from its JSON form,
with its certificate or without one, unless a sum in it has overflowed. A sum that has overflowed is
written as `null`, and unlike an unbounded limit among the options it is refused there.
-/

namespace LinearAssignment

open Json (ReadError Shape)

variable {library : JsonLibrary} {depth : ℕ} {cost : CostMatrix Float} {options : Options Float}
  {answer : Assignment Float}

/-! ## Counts -/

/-- The counts of some figures fit words. -/
structure Metrics.FitsWords (metrics : Metrics) : Prop where
  dimension : metrics.dimension < UInt64.size
  greedyAssignments : metrics.greedyAssignments < UInt64.size
  augmentations : metrics.augmentations < UInt64.size
  columnsScanned : metrics.columnsScanned < UInt64.size
  excludedByLimit : metrics.excludedByLimit < UInt64.size

/-- A square that is solved has fewer cells than a word counts. -/
theorem SquareProblem.cells_lt_of_ofCost {problem : SquareProblem Float}
    (made : ofCost cost options = .ok problem) :
    problem.dimension * problem.dimension < UInt64.size := by
  have addressable : addressableBytes < UInt64.size := by decide
  obtain ⟨_, ⟨_, space, rfl⟩ | ⟨_, ⟨square, rfl⟩ | ⟨_, space, rfl⟩⟩⟩ := ofCost_cases made
  · have fits := fits_of_room space
    rw [entryBytes] at fits
    change (cost.rows + cost.cols) * (cost.rows + cost.cols) < _
    omega
  · have fits := cost.size_lt
    rwa [← square] at fits
  · have fits := fits_of_room space
    rw [entryBytes] at fits
    change cost.dimension * cost.dimension < _
    omega

/-- Nothing is counted more often than the square has cells. -/
theorem Metrics.FitsWords.of_solve (success : solve cost options = .ok answer) :
    answer.metrics.FitsWords := by
  obtain ⟨_, problem, made, _, solved, rfl⟩ := solve_eq_ok_iff.mp success
  rcases solution : problem.solution options.initialization with ⟨stranded, final⟩
  rw [solution] at solved
  obtain rfl : stranded = none := solved
  obtain ⟨greedy, _, accounts, complete⟩ := exists_accounts_of_solveSquare solution
  have cells := SquareProblem.cells_lt_of_ofCost made
  have side := Nat.le_mul_self problem.dimension
  have rows := accounts.matchedRows_eq
  have scanned := accounts.scanned_le
  rw [complete] at rows scanned
  have whole := Nat.mul_add_one problem.dimension problem.dimension
  exact
    { dimension := accounts.dimension_eq.trans_lt (side.trans_lt cells)
      greedyAssignments := accounts.greedy_eq.trans_lt (by omega)
      augmentations := show final.tally.metrics.augmentations < _ by omega
      columnsScanned := show final.tally.metrics.columnsScanned < _ by omega
      excludedByLimit := Nat.mod_lt _ (by decide) }

/-! ## Reading back -/

private theorem ofValue_toValue_assignment (answer : Assignment Float) :
    JsonForm.ofValue (JsonForm.toValue answer) = answer := by
  rcases answer with ⟨rowToCol, colToRow, totalCost, metrics, certificate⟩
  cases certificate <;> rfl

/-- The assignment with the time that its solve has taken. -/
def Assignment.timed {κ : Type} (answer : Assignment κ) (elapsed : Duration) : Assignment κ :=
  { answer with metrics := { answer.metrics with executionTime := elapsed } }

/-- The refusal of `null` in place of a number. -/
private abbrev noNumber : ReadError := .mismatch (.type .null "f64")

/-- The partners on one side come back if they fit words. -/
private theorem returns_partners (lawful : library.Lawful) {partners : List (Option ℕ)}
    {bound : ℕ} (small : bound < UInt64.size)
    (below : ∀ index partner : ℕ, partners[index]? = some (some partner) → partner < bound) :
    library.Returns (depth + 1) (.list (.optional .count)) partners (.ok partners) := by
  refine lawful.returns_list fun partner member => ?_
  obtain ⟨index, found⟩ := List.getElem?_of_mem member
  cases partner with
  | none => exact lawful.returns_none depth .count
  | some partner =>
    exact lawful.returns_some
      (lawful.returns_count depth ((below index partner found).trans small))
      fun layout level => lawful.print_natural_ne layout level "usize" _ partner

private theorem returns_metrics (lawful : library.Lawful) {metrics : Metrics}
    (fits : metrics.FitsWords) (normal : Json.Normal metrics.executionTime) :
    library.Returns (depth + 2) (JsonForm.shape Metrics) (JsonForm.toValue metrics)
      (.ok (JsonForm.toValue metrics)) :=
  lawful.returns_record (by decide)
    ⟨lawful.returns_count _ fits.dimension, lawful.returns_count _ fits.greedyAssignments,
      lawful.returns_count _ fits.augmentations, lawful.returns_count _ fits.columnsScanned,
      lawful.returns_count _ fits.excludedByLimit, lawful.returns_duration depth normal, trivial⟩

/-- The certificate of an answer comes back if its gap has not overflowed. -/
private theorem returns_certificate (lawful : library.Lawful) (keeps : library.KeepsNumbers)
    (success : solve cost options = .ok answer) {certificate : Certificate Float}
    (attached : answer.certificate = some certificate)
    (gap : certificate.dualityGap.isFinite = true) :
    library.Returns (depth + 1) (JsonForm.shape (Certificate Float))
      (JsonForm.toValue certificate) (.ok (JsonForm.toValue certificate)) := by
  obtain ⟨tolerance, objectives⟩ := isFinite_certificate_of_solve success attached
  obtain ⟨primal, dual⟩ := objectives gap
  have small : certificate.dimension < UInt64.size := by
    obtain ⟨problem, colOf, potentials, made, rfl⟩ := exists_compute_of_solve success attached
    exact (Nat.le_mul_self _).trans_lt (SquareProblem.cells_lt_of_ofCost made)
  exact lawful.returns_record (by decide)
    ⟨keeps.returns_finite _ primal, keeps.returns_finite _ dual, keeps.returns_finite _ gap,
      lawful.returns_boolean _ _, lawful.returns_boolean _ _, keeps.returns_finite _ tolerance,
      lawful.returns_count _ small, trivial⟩

/-- A certificate is refused at the first of its numbers that is not finite. -/
private theorem refuses_certificate (lawful : library.Lawful) (keeps : library.KeepsNumbers)
    {certificate : Certificate Float} (infinite : certificate.dualityGap.isFinite = false) :
    library.Returns (depth + 1) (JsonForm.shape (Certificate Float))
      (JsonForm.toValue certificate) (.error noNumber) := by
  refine lawful.refuses_record (by decide) ?_
  cases primal : certificate.primalObjective.isFinite with
  | false => exact .inl (lawful.returns_infinite keeps _ primal)
  | true =>
    refine .inr ⟨keeps.returns_finite _ primal, ?_⟩
    cases dual : certificate.dualObjective.isFinite with
    | false => exact .inl (lawful.returns_infinite keeps _ dual)
    | true =>
      exact .inr ⟨keeps.returns_finite _ dual, .inl (lawful.returns_infinite keeps _ infinite)⟩

/-- All parts of an answer but its total and its certificate come back in any case. -/
private theorem returns_parts (lawful : library.Lawful) (success : solve cost options = .ok answer)
    {elapsed : Duration} (normal : Json.Normal elapsed) :
    library.Returns (depth + 2) (.list (.optional .count)) answer.rowToCol (.ok answer.rowToCol) ∧
      library.Returns (depth + 2) (.list (.optional .count)) answer.colToRow
        (.ok answer.colToRow) ∧
      library.Returns (depth + 2) (JsonForm.shape Metrics)
        (JsonForm.toValue (answer.timed elapsed).metrics)
        (.ok (JsonForm.toValue (answer.timed elapsed).metrics)) := by
  obtain ⟨dimension, greedy, augmentations, scanned, excluded⟩ := Metrics.FitsWords.of_solve success
  have sound := Assignment.Sound.of_solve success
  obtain ⟨tall, wide⟩ := sides_small_of_solve success
  rw [wordSize] at tall wide
  exact ⟨returns_partners lawful (by omega) sound.col_lt,
    returns_partners lawful (by omega) fun col row found => sound.row_lt row col found,
    returns_metrics lawful ⟨dimension, greedy, augmentations, scanned, excluded⟩ normal⟩

private theorem returns_answer (lawful : library.Lawful) (keeps : library.KeepsNumbers)
    (success : solve cost options = .ok answer) {elapsed : Duration}
    (normal : Json.Normal elapsed) (range : answer.inRange = true) :
    library.Returns (depth + 3) (JsonForm.shape (Assignment Float))
      (JsonForm.toValue (answer.timed elapsed))
      (.ok (JsonForm.toValue (answer.timed elapsed))) := by
  obtain ⟨rows, cols, metrics⟩ := returns_parts lawful success normal
  rw [Assignment.inRange, Bool.and_eq_true, Option.all_eq_true] at range
  refine lawful.returns_record (by decide)
    ⟨rows, cols, keeps.returns_finite _ range.1, metrics, fun inner written => ?_, trivial⟩
  obtain ⟨certificate, attached, rfl⟩ := Option.map_eq_some_iff.mp written
  exact lawful.returns_some
    (returns_certificate lawful keeps success attached (range.2 certificate attached))
    fun layout level => lawful.print_record_ne layout level _ _ _

private theorem refuses_answer (lawful : library.Lawful) (keeps : library.KeepsNumbers)
    (success : solve cost options = .ok answer) {elapsed : Duration}
    (normal : Json.Normal elapsed) (overflow : answer.inRange = false) :
    library.Returns (depth + 3) (JsonForm.shape (Assignment Float))
      (JsonForm.toValue (answer.timed elapsed)) (.error noNumber) := by
  obtain ⟨rows, cols, metrics⟩ := returns_parts lawful success normal
  refine lawful.refuses_record (by decide) (.inr ⟨rows, .inr ⟨cols, ?_⟩⟩)
  cases total : answer.totalCost.isFinite with
  | false => exact .inl (lawful.returns_infinite keeps _ total)
  | true =>
    rw [Assignment.inRange, total, Bool.true_and, ← Bool.not_eq_true,
      Option.all_eq_true] at overflow
    push Not at overflow
    obtain ⟨certificate, attached, infinite⟩ := overflow
    refine .inr ⟨keeps.returns_finite _ total, .inr ⟨metrics, .inl
      ⟨JsonForm.toValue certificate, Option.map_eq_some_iff.mpr ⟨certificate, attached, rfl⟩, ?_⟩⟩⟩
    exact lawful.returns_some (refuses_certificate lawful keeps (by simpa using infinite))
      fun layout level => lawful.print_record_ne layout level _ _ _

/-- With every lawful library that keeps numbers, what a solve answers is read from what is written
of it, unless a sum in it has overflowed: then it is refused for the `null` in place of that sum. No
sum overflows if the matrix is not too large and its costs are moderate. -/
theorem read_write_of_solve (lawful : library.Lawful) (keeps : library.KeepsNumbers)
    (success : solve cost options = .ok answer) {elapsed : Duration}
    (normal : Json.Normal elapsed) :
    (∀ layout, library.read (Assignment Float) (library.write layout (answer.timed elapsed)) =
      if answer.inRange then .ok (answer.timed elapsed)
      else .error (.mismatch (.type .null "f64"))) ∧
    ∀ size : ℚ, cost.Moderate options size → cost.rows + cost.cols ≤ 2 ^ 16 →
      64 * ((cost.rows + cost.cols : ℚ) * (cost.rows + cost.cols)) * size ≤
        RoundedCost.range Float →
      answer.inRange = true := by
  refine ⟨fun layout => ?_, fun size => inRange_of_moderate success⟩
  split_ifs with range
  · have read := lawful.read_write (returns_answer lawful keeps success normal range) layout
    rwa [Except.map, ofValue_toValue_assignment] at read
  · have overflow : answer.inRange = false := by simpa using range
    exact lawful.read_write (refuses_answer lawful keeps success normal overflow) layout

/-- A wide matrix under a limit of its larger cost, solved with a certificate in a second and a
half. -/
theorem read_write_of_solve_verified :
    let cost : CostMatrix Float :=
      ⟨1, 2, #[Float.ofNat 0, Float.ofNat 1], by decide, by decide, rfl, by decide,
        by decide +kernel⟩
    let options : Options Float :=
      { extendCost := true, verify := true, costLimit := Float.ofNat 1,
        limitStrategy := .augmented }
    let elapsed : Duration := ⟨1, 500000000⟩
    ∃ answer, solve cost options = .ok answer ∧ answer.certificate.isSome = true ∧
      Json.Normal elapsed ∧ cost.Moderate options 1 ∧
      ∀ layout, Json.library.read (Assignment Float)
        (Json.library.write layout (answer.timed elapsed)) = .ok (answer.timed elapsed) := by
  intro cost options elapsed
  have verified : (solve cost options).toOption.map (·.certificate.isSome) = some true := by
    decide +kernel
  have normal : Json.Normal elapsed := ⟨by decide, by decide⟩
  have moderate : cost.Moderate options 1 := by
    refine ⟨fun a member => ?_, fun _ => Within.one.abs_le⟩
    have entries : a = Float.ofNat 0 ∨ a = Float.ofNat 1 := by simpa [cost] using member
    rcases entries with rfl | rfl
    · exact (Within.zero.mono zero_le_one).abs_le
    · exact Within.one.abs_le
  cases success : solve cost options with
  | error refusal =>
    rw [success] at verified
    contradiction
  | ok answer =>
    rw [success] at verified
    obtain ⟨reads, inside⟩ :=
      read_write_of_solve Json.lawful_library Json.keepsNumbers_library success normal
    have range := inside 1 moderate (by decide) (Binary64.le_range (by norm_num [cost]))
    rw [if_pos range] at reads
    exact ⟨answer, rfl, Option.some.inj verified, normal, moderate, reads⟩

/-- Two costs next to the largest number add up to infinity, and the answer with this total is
refused by every lawful library that keeps numbers. -/
theorem read_write_of_overflow :
    let cost : CostMatrix Float :=
      ⟨2, 2, #[1.7e308, 1.7e308, 1.7e308, 1.7e308], by decide, by decide, rfl, by decide,
        by decide +kernel⟩
    ∃ answer, solve cost {} = .ok answer ∧
      ∀ library : JsonLibrary, library.Lawful → library.KeepsNumbers → ∀ layout,
        library.read (Assignment Float) (library.write layout answer) =
          .error (.mismatch (.type .null "f64")) := by
  intro cost
  have overflow : (solve cost {}).toOption.map (fun answer =>
      (answer.inRange, answer.metrics.executionTime)) = some (false, .zero) := by
    decide +kernel
  cases success : solve cost {} with
  | error refusal =>
    rw [success] at overflow
    contradiction
  | ok answer =>
    rw [success] at overflow
    obtain ⟨infinite, time⟩ := Prod.mk.inj (Option.some.inj overflow)
    have normal : Json.Normal answer.metrics.executionTime := by
      rw [time]
      exact ⟨by decide, by decide⟩
    exact ⟨answer, rfl, fun library lawful keeps layout =>
      lawful.read_write (refuses_answer lawful keeps success normal infinite) layout⟩

end LinearAssignment
