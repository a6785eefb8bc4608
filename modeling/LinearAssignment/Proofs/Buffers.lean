import LinearAssignment.Proofs.Lifecycle

/-! # Solving into buffers

A call that solves into the buffers of its caller checks both lengths before it touches the handle,
and writes only when the solve has succeeded. So every error leaves the buffers as they are. What is
written can be told apart: a matrix that has been solved is far too small for one of its indices to
wrap around in a signed word and be taken for a missing partner.
-/

namespace LinearAssignment

/-! ## Partners in signed words -/

section

variable {partner : Option Nat} {index : Nat}

/-- An index in the lower half of the words keeps its value. -/
theorem sentinel_some (small : 2 * index < wordSize) : sentinel (some index) = index := by
  rw [sentinel, Int.bmod_eq_of_le]
  · omega
  · omega

/-- A word that is not negative is the index of a partner. -/
theorem sentinel_eq_natCast_iff (small : ∀ index, partner = some index → 2 * index < wordSize) :
    sentinel partner = (index : Int) ↔ partner = some index := by
  cases partner with
  | none =>
    simp [sentinel, unassigned]
  | some other =>
    rw [sentinel_some (small other rfl), Option.some.injEq]
    omega

/-- The mark of a missing partner stands for nothing else. -/
theorem sentinel_eq_unassigned_iff (small : ∀ index, partner = some index → 2 * index < wordSize) :
    sentinel partner = unassigned ↔ partner = none := by
  cases partner with
  | none => simp only [sentinel]
  | some other =>
    simp [sentinel_some (small other rfl), unassigned]

end

/-- Signed entries that show the partners of one side: the index of each partner, and the mark of a
missing one where there is none. -/
structure ShowsPartners (entries : List Int) (partners : List (Option Nat)) : Prop where
  length_eq : entries.length = partners.length
  partner_iff : ∀ index partner : Nat,
    entries[index]? = some (partner : Int) ↔ partners[index]? = some (some partner)
  open_iff : ∀ index : Nat, entries[index]? = some unassigned ↔ partners[index]? = some none

/-- Partners whose indices keep their values in signed words are shown. -/
theorem showsPartners_map_sentinel {partners : List (Option Nat)}
    (small : ∀ partner, some partner ∈ partners → 2 * partner < wordSize) :
    ShowsPartners (partners.map sentinel) partners where
  length_eq := List.length_map _
  partner_iff index partner := by
    rw [List.getElem?_map]
    cases entry : partners[index]? with
    | none => simp
    | some other =>
      have kept : sentinel other = (partner : Int) ↔ other = some partner :=
        sentinel_eq_natCast_iff fun found same =>
          small found (same ▸ List.mem_of_getElem? entry)
      simpa using kept
  open_iff index := by
    rw [List.getElem?_map]
    cases entry : partners[index]? with
    | none => simp
    | some other =>
      have marked : sentinel other = unassigned ↔ other = none :=
        sentinel_eq_unassigned_iff fun found same =>
          small found (same ▸ List.mem_of_getElem? entry)
      simpa using marked

/-! ## Sides of a solved matrix -/

section

variable {κ : Type} [CostNumber κ] {cost : CostMatrix κ} {options : Options κ}
  {answer : Assignment κ} {limit : κ}

/-- Both sides of a matrix that has been solved lie in the lower half of the words. -/
theorem sides_small_of_solve (success : solve cost options = .ok answer) :
    2 * cost.rows < wordSize ∧ 2 * cost.cols < wordSize := by
  obtain ⟨_, problem, made, ⟨capacity, room⟩, _⟩ := solve_eq_ok_iff.mp success
  obtain ⟨_, bytes⟩ := reserve_eq_ok_iff.mp room
  rw [SquareProblem.dimension_of_ofCost made] at bytes
  have sides := sides_le_squareSide cost options
  have addressable : addressableBytes < wordSize := by decide
  rw [entryBytes] at bytes
  omega

/-- A sound assignment to small sides is shown by its signed arrays. -/
theorem Assignment.Sound.shows (sound : answer.Sound cost limit)
    (small : 2 * cost.rows < wordSize ∧ 2 * cost.cols < wordSize) :
    ShowsPartners answer.toSentinelArrays.1 answer.rowToCol ∧
      ShowsPartners answer.toSentinelArrays.2 answer.colToRow := by
  constructor
  · apply showsPartners_map_sentinel
    intro col member
    obtain ⟨row, paired⟩ := List.mem_iff_getElem?.mp member
    have inside := sound.col_lt row col paired
    omega
  · apply showsPartners_map_sentinel
    intro row member
    obtain ⟨col, paired⟩ := List.mem_iff_getElem?.mp member
    have inside := sound.row_lt row col paired
    omega

end

/-! ## The call -/

/-- An assignment that is refused by buffers does not change them. -/
theorem Assignment.buffers_of_writeInto {κ : Type} {answer : Assignment κ} {buffers : Buffers}
    {refusal : Refusal κ} (refused : (answer.writeInto buffers).1 = .error refusal) :
    (answer.writeInto buffers).2 = buffers := by
  rw [writeInto] at refused ⊢
  cases checked : (buffers.check answer.rowToCol.length answer.colToRow.length :
    Except (Refusal κ) Unit) with
  | error wrong => rfl
  | ok _ =>
    rw [checked] at refused
    contradiction

namespace Solver

variable {κ : Type} [CostNumber κ] {solver : Solver κ} {cost : CostMatrix κ} {buffers : Buffers}
  {answer : Assignment κ} {refusal : Refusal κ}

/-- Buffers are kept when the solve fails. -/
theorem solveIntoBuffers_of_error
    (passed : buffers.check cost.rows cost.cols = (.ok () : Except (Refusal κ) Unit))
    (failed : (solver.solve cost).result = .error refusal) :
    solver.solveIntoBuffers cost buffers =
      (⟨.error refusal, (solver.solve cost).solver, (solver.solve cost).log⟩, buffers) := by
  rw [solveIntoBuffers_of_passed passed, failed]

/-- A sound assignment passes the second check of the lengths, and is written. -/
theorem solveIntoBuffers_of_ok {limit : κ}
    (passed : buffers.check cost.rows cost.cols = (.ok () : Except (Refusal κ) Unit))
    (solved : (solver.solve cost).result = .ok answer) (sound : answer.Sound cost limit) :
    solver.solveIntoBuffers cost buffers =
      (⟨.ok answer.totalCost, (solver.solve cost).solver, (solver.solve cost).log⟩,
        ⟨answer.toSentinelArrays.1, answer.toSentinelArrays.2⟩) := by
  have passedAgain : buffers.check answer.rowToCol.length answer.colToRow.length =
      (.ok () : Except (Refusal κ) Unit) := by
    rw [sound.rows_length, sound.cols_length]
    exact passed
  have written : answer.writeInto buffers =
      (.ok answer.totalCost, ⟨answer.toSentinelArrays.1, answer.toSentinelArrays.2⟩) := by
    rw [Assignment.writeInto, passedAgain]
  rw [solveIntoBuffers_of_passed passed, solved]
  dsimp only
  rw [written]

/-- Whatever a call is refused for, it has written nothing. -/
theorem buffers_of_refused
    (refused : (solver.solveIntoBuffers cost buffers).1.result = .error refusal) :
    (solver.solveIntoBuffers cost buffers).2 = buffers := by
  cases checked : (buffers.check cost.rows cost.cols : Except (Refusal κ) Unit) with
  | error wrong => rw [solveIntoBuffers_of_refused checked]
  | ok _ =>
    cases solved : (solver.solve cost).result with
    | error cause => rw [solveIntoBuffers_of_error checked solved]
    | ok answer =>
      rw [solveIntoBuffers_of_passed checked, solved] at refused ⊢
      exact answer.buffers_of_writeInto refused

/-- What a call into buffers does on a handle with any history. Buffers of a wrong length are
refused and leave the handle alone, `x` before `y`; buffers of the right lengths get the answer of a
plain solve, or its refusal. Every refusal leaves both buffers as they were; otherwise they show the
partners on either side, and each says of the other what it says of itself. -/
theorem solveIntoBuffers_after (options : Options Float) (history : List Operation)
    (cost : CostMatrix Float) (buffers : Buffers) :
    let solver := (ofOptions options).after history
    let call := (solver.solveIntoBuffers cost buffers).1
    let written := (solver.solveIntoBuffers cost buffers).2
    (buffers.x.length ≠ cost.rows →
      call.result = .error (.bufferLength "x" cost.rows buffers.x.length) ∧
        call.solver = solver) ∧
    (buffers.x.length = cost.rows → buffers.y.length ≠ cost.cols →
      call.result = .error (.bufferLength "y" cost.cols buffers.y.length) ∧
        call.solver = solver) ∧
    (∀ refusal, call.result = .error refusal → written = buffers) ∧
    (buffers.x.length = cost.rows → buffers.y.length = cost.cols →
      call.solver = (solver.solve cost).solver ∧
      (∀ refusal, (solver.solve cost).result = .error refusal → call.result = .error refusal) ∧
      ∀ answer, (solver.solve cost).result = .ok answer →
        call.result = .ok answer.totalCost ∧
        ShowsPartners written.x answer.rowToCol ∧ ShowsPartners written.y answer.colToRow ∧
        ∀ row col : Nat, written.x[row]? = some (col : Int) ↔
          written.y[col]? = some (row : Int)) := by
  intro solver call written
  have fits : solver.workspace.Fits := fits_after Workspace.fits_empty history
  have alone : (solver.solve cost).result = LinearAssignment.solve cost solver.options :=
    (solve_of_fits fits cost).1
  refine ⟨fun wrong => ?_, fun rows wrong => ?_, fun refusal refused => ?_, fun rows cols => ?_⟩
  · have refused : buffers.check cost.rows cost.cols =
        (.error (.bufferLength "x" cost.rows buffers.x.length) : Except (Refusal Float) Unit) := by
      rw [Buffers.check, if_pos wrong]
    simp only [call, solveIntoBuffers_of_refused refused, and_self]
  · have refused : buffers.check cost.rows cost.cols =
        (.error (.bufferLength "y" cost.cols buffers.y.length) : Except (Refusal Float) Unit) := by
      rw [Buffers.check, if_neg (not_not.mpr rows), if_pos wrong]
    simp only [call, solveIntoBuffers_of_refused refused, and_self]
  · exact buffers_of_refused refused
  · have passed : buffers.check cost.rows cost.cols = (.ok () : Except (Refusal Float) Unit) :=
      Buffers.check_eq_ok_iff.mpr ⟨rows, cols⟩
    refine ⟨?_, fun refusal failed => ?_, fun answer solved => ?_⟩
    · obtain ⟨refusal, refused, _⟩ | ⟨_, handle⟩ := solver.solveIntoBuffers_cases cost buffers
      · rw [passed] at refused
        contradiction
      · exact handle
    · simp only [call, solveIntoBuffers_of_error passed failed]
    · have success := alone.symm.trans solved
      have sound := Assignment.Sound.of_solve success
      have outcome := solveIntoBuffers_of_ok passed solved sound
      obtain ⟨showsRows, showsCols⟩ := sound.shows (sides_small_of_solve success)
      simp only [call, written, outcome]
      refine ⟨trivial, showsRows, showsCols, fun row col => ?_⟩
      rw [showsRows.partner_iff, showsCols.partner_iff]
      exact sound.paired_iff row col

/-- A wide matrix that was refused for its shape, and is solved after the options have changed. -/
theorem solveIntoBuffers_after_refusal :
    let cost : CostMatrix Float :=
      ⟨2, 3, #[5, 1, 9, 2, 3, 1], by decide, by decide, rfl, by decide, by decide +kernel⟩
    let history : List Operation := [.solve cost, .configure { extendCost := true }]
    let solver := (ofOptions {}).after history
    let outcome := solver.solveIntoBuffers cost ⟨[7, 7], [7, 7, 7]⟩
    ∃ answer, (solver.solve cost).result = .ok answer ∧
      outcome.1.result = .ok answer.totalCost ∧ outcome.2 = ⟨[1, 2], [-1, 0, 1]⟩ ∧
      ∀ row col : Nat, outcome.2.x[row]? = some (col : Int) ↔
        outcome.2.y[col]? = some (row : Int) := by
  intro cost history solver outcome
  have written : outcome.2 = ⟨[1, 2], [-1, 0, 1]⟩ := by decide +kernel
  have answered : (solver.solve cost).result.isOk = true := by decide +kernel
  obtain ⟨_, _, _, fitting⟩ := solveIntoBuffers_after {} history cost ⟨[7, 7], [7, 7, 7]⟩
  obtain ⟨_, _, success⟩ := fitting rfl rfl
  cases solved : (solver.solve cost).result with
  | error refusal =>
    rw [solved] at answered
    contradiction
  | ok answer =>
    obtain ⟨total, _, _, paired⟩ := success answer solved
    exact ⟨answer, rfl, total, written, paired⟩

end Solver

end LinearAssignment
