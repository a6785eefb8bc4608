import LinearAssignment.Proofs.Rectangular
import LinearAssignment.Proofs.Rescaling

/-! # Solves of rescaled matrices

Without a limit, a matrix that has at least as many columns as rows is filled up with whole rows.
Their cost does not scale with the matrix, because the sentinel exceeds the largest cost in either,
but it is one cost for each of them, so that filled rows are rescaled too. Hence a solve of a
rescaled matrix gives the same answer, at the rescaled total.
-/

namespace LinearAssignment

open CostNumber (isFinite)
open ExactCost (finite)

namespace CostMatrix

variable (cost : CostMatrix ExactCost) (scale : ℚ) (shift : Fin cost.rows → ℚ)

/-- A matrix with all costs multiplied by a scale and each row shifted by an amount of its own. -/
abbrev rescaled : CostMatrix ExactCost where
  rows := cost.rows
  cols := cost.cols
  data := Array.ofFn fun position : Fin (cost.rows * cost.cols) =>
    (cost.get position.divNat position.modNat).rescale scale (shift position.divNat)
  rows_pos := cost.rows_pos
  cols_pos := cost.cols_pos
  size_eq := Array.size_ofFn
  size_lt := cost.size_lt
  finite := by
    intro a member
    obtain ⟨position, rfl⟩ := Array.mem_ofFn.mp member
    rw [ExactCost.isFinite_rescale]
    exact cost.isFinite_get _ _

theorem get_rescaled (row : Fin cost.rows) (col : Fin cost.cols) :
    (cost.rescaled scale shift).get row col = (cost.get row col).rescale scale (shift row) := by
  have inside := position_lt row.isLt col.isLt
  have quotient : (⟨row.val * cost.cols + col.val, inside⟩ : Fin (cost.rows * cost.cols)).divNat =
      row := by
    apply Fin.ext
    change (row.val * cost.cols + col.val) / cost.cols = row.val
    rw [Nat.mul_comm, Nat.mul_add_div cost.cols_pos, Nat.div_eq_of_lt col.isLt,
      Nat.add_zero]
  have remainder : (⟨row.val * cost.cols + col.val, inside⟩ : Fin (cost.rows * cost.cols)).modNat =
      col := by
    apply Fin.ext
    change (row.val * cost.cols + col.val) % cost.cols = col.val
    rw [Nat.mul_comm, Nat.mul_add_mod, Nat.mod_eq_of_lt col.isLt]
  have entry : (cost.rescaled scale shift).get row col =
      (cost.get (⟨row.val * cost.cols + col.val, inside⟩ : Fin _).divNat
        (⟨row.val * cost.cols + col.val, inside⟩ : Fin _).modNat).rescale scale
          (shift (⟨row.val * cost.cols + col.val, inside⟩ : Fin _).divNat) :=
    Array.getElem_ofFn ..
  rw [entry, quotient, remainder]

theorem value_rescaled (row : Fin cost.rows) (col : Fin cost.cols) :
    (cost.rescaled scale shift).value row col = scale * cost.value row col + shift row := by
  have entry := cost.get_rescaled scale shift row col
  rw [value, entry, ExactCost.value_rescale (cost.isFinite_get row col)]
  rfl

end CostMatrix

/-- A pairing of all rows is scaled as a whole and shifted by all rows. -/
theorem Pairing.total_rescaled {rows cols : Nat} (pairing : Pairing rows cols)
    (full : pairing.size = rows) (price : Fin rows → Fin cols → ℚ) (scale : ℚ)
    (shift : Fin rows → ℚ) :
    pairing.total (fun row col => scale * price row col + shift row) =
      scale * pairing.total price + ∑ row, shift row := by
  have paired : ∀ row, pairing row ≠ none := by
    intro row isOpen
    have count := pairing.card_open_add_size
    have some : 0 < Fintype.card {row // pairing row = none} :=
      Fintype.card_pos_iff.mpr ⟨row, isOpen⟩
    omega
  have shifts : ∑ pair ∈ pairing.pairs, shift pair.1 = ∑ row, shift row := by
    rw [sum_pairs]
    refine Finset.sum_congr rfl fun row _ => ?_
    obtain ⟨col, partner⟩ := Option.ne_none_iff_exists'.mp (paired row)
    rw [partner, Option.elim_some]
  rw [total, total, Finset.sum_add_distrib, ← Finset.mul_sum, shifts]

variable {cost : CostMatrix ExactCost} {options : Options ExactCost} {scale : ℚ}
  {shift : Fin cost.rows → ℚ}

/-! ## The squares -/

/-- A row of a wide matrix is a whole row of its filled square. -/
theorem get_padded_of_lt (cost : CostMatrix ExactCost) (wide : cost.rows ≤ cost.cols)
    (sentinel : ExactCost) {row : Fin cost.dimension} (inside : row.val < cost.rows)
    (col : Fin cost.dimension) : (cost.padded sentinel).get row col =
      cost.get ⟨row, inside⟩ ⟨col, col.isLt.trans_eq (max_eq_right wide)⟩ := by
  rw [cost.get_padded sentinel row col, CostMatrix.get?,
    dif_pos ⟨inside, col.isLt.trans_eq (max_eq_right wide)⟩, Option.getD_some]

theorem get_padded_of_le (cost : CostMatrix ExactCost) (sentinel : ExactCost)
    {row : Fin cost.dimension} (outside : cost.rows ≤ row.val) (col : Fin cost.dimension) :
    (cost.padded sentinel).get row col = sentinel := by
  rw [cost.get_padded sentinel row col, CostMatrix.get?_eq_none (.inl outside), Option.getD_none]

theorem isFinite_sentinel_of_le (cost : CostMatrix ExactCost) {row : Fin cost.dimension}
    (outside : cost.rows ≤ row.val) : isFinite (cost.sentinelCost .top) = true := by
  have cell := (SquareProblem.byPadding_gated cost .top).rational row row
  rwa [show (SquareProblem.byPadding cost .top).matrix.get row row = cost.sentinelCost .top from
    get_padded_of_le cost _ outside row] at cell

theorem SquareProblem.asItIs_rescales (cost : CostMatrix ExactCost)
    (square : cost.rows = cost.cols) (scale : ℚ) (shift : Fin cost.rows → ℚ) :
    (asItIs cost square).matrix.Rescales (asItIs (cost.rescaled scale shift) square).matrix scale
      shift := by
  intro row col
  calc (asItIs (cost.rescaled scale shift) square).matrix.get row col
    _ = (cost.rescaled scale shift).get row (col.cast square) :=
      get_asItIs (cost.rescaled scale shift) square row col
    _ = (cost.get row (col.cast square)).rescale scale (shift row) := cost.get_rescaled ..
    _ = ((asItIs cost square).matrix.get row col).rescale scale (shift row) :=
      congrArg _ (get_asItIs cost square row col).symm

namespace CostMatrix

/-- How much each row of a filled square is shifted: rows of the matrix by their own amounts, and
filled rows by what the sentinel does not scale. -/
def paddedShift (cost : CostMatrix ExactCost) (scale : ℚ) (shift : Fin cost.rows → ℚ)
    (row : Fin cost.dimension) : ℚ :=
  if inside : row.val < cost.rows then shift ⟨row, inside⟩
  else
    ((cost.rescaled scale shift).sentinelCost .top).value - scale * (cost.sentinelCost .top).value

theorem padded_rescales (cost : CostMatrix ExactCost) (wide : cost.rows ≤ cost.cols) (scale : ℚ)
    (shift : Fin cost.rows → ℚ) :
    (cost.padded (cost.sentinelCost .top)).Rescales
      ((cost.rescaled scale shift).padded ((cost.rescaled scale shift).sentinelCost .top)) scale
      (cost.paddedShift scale shift) := by
  intro row col
  by_cases inside : row.val < cost.rows
  · have amount : cost.paddedShift scale shift row = shift ⟨row, inside⟩ := dif_pos inside
    rw [amount, get_padded_of_lt cost wide _ inside]
    exact (get_padded_of_lt (cost.rescaled scale shift) wide _ inside col).trans
      (cost.get_rescaled ..)
  · have outside := not_lt.mp inside
    have amount : cost.paddedShift scale shift row =
        ((cost.rescaled scale shift).sentinelCost .top).value -
          scale * (cost.sentinelCost .top).value := dif_neg inside
    have rational := isFinite_sentinel_of_le cost outside
    have rational' : isFinite ((cost.rescaled scale shift).sentinelCost .top) = true :=
      isFinite_sentinel_of_le (cost.rescaled scale shift) outside
    rw [amount, get_padded_of_le cost _ outside]
    refine (get_padded_of_le (cost.rescaled scale shift) _ outside col).trans ?_
    rw [ExactCost.eq_finite_value rational', ExactCost.eq_finite_value rational]
    simp

end CostMatrix

/-- A wide matrix without a limit is solved as it is or filled up with rows. -/
theorem SquareProblem.ofCost_unlimited (shape : cost.isSquare = true ∨ options.extendCost = true)
    (unlimited : options.costLimit = .top) :
    (∀ square : cost.rows = cost.cols, ofCost cost options = .ok (asItIs cost square)) ∧
      (cost.rows ≠ cost.cols →
        (room cost.dimension : Except (Refusal ExactCost) Unit) = .ok () →
          ofCost cost options = .ok (byPadding cost .top)) := by
  have accepted : (!cost.isSquare && !options.extendCost) = false := by
    rcases shape with square | extended
    · simp [square]
    · simp [extended]
  have notLimited : options.isLimited = false := by
    rw [Options.isLimited, unlimited]
    rfl
  refine ⟨fun square => ?_, fun rectangular filled => ?_⟩
  · simp [ofCost, accepted, notLimited, square]
  · simp [ofCost, accepted, notLimited, rectangular, filled, unlimited, bind, Except.bind, pure,
      Except.pure]

/-- Both matrices have square problems of one side, and one square is the other, rescaled. -/
theorem SquareProblem.exists_ofCost_rescaled (wide : cost.rows ≤ cost.cols)
    (shape : cost.isSquare = true ∨ options.extendCost = true)
    (unlimited : options.costLimit = .top)
    (space : cost.isSquare = true ∨
      (room cost.dimension : Except (Refusal ExactCost) Unit) = .ok ())
    (scale : ℚ) (shift : Fin cost.rows → ℚ) :
    ∃ (n : Nat) (matrix matrix' : SquareMatrix ExactCost n) (log log' : List (LogEntry ExactCost))
      (amounts : Fin n → ℚ),
      ofCost cost options = .ok ⟨n, matrix, log⟩ ∧
      ofCost (cost.rescaled scale shift) options = .ok ⟨n, matrix', log'⟩ ∧
      matrix.Rational ∧ matrix.Rescales matrix' scale amounts ∧ n = cost.cols := by
  obtain ⟨asIs, filledUp⟩ := ofCost_unlimited shape unlimited
  obtain ⟨asIs', filledUp'⟩ :=
    ofCost_unlimited (show (cost.rescaled scale shift).isSquare = true ∨ _ from shape) unlimited
  by_cases square : cost.rows = cost.cols
  · exact ⟨cost.rows, _, _, _, _, shift, asIs square, asIs' square, (asItIs_gated square).rational,
      asItIs_rescales cost square scale shift, square⟩
  · have room := space.resolve_left fun isSquare => square (eq_of_beq isSquare)
    exact ⟨cost.dimension, _, _, _, _, cost.paddedShift scale shift, filledUp square room,
      filledUp' square room, (byPadding_gated cost .top).rational,
      cost.padded_rescales wide scale shift, max_eq_right wide⟩

/-! ## The answers -/

/-- Without a limit an answer has all pairs of a permutation that lie inside the matrix, costs as
much as they do, and has the figures of the square. -/
theorem exists_solve_unlimited {problem : SquareProblem ExactCost}
    {final : Progress ExactCost problem.dimension}
    {permutation : Equiv.Perm (Fin problem.dimension)} (unlimited : options.costLimit = .top)
    (made : SquareProblem.ofCost cost options = .ok problem)
    (solved : problem.solution options.initialization = (none, final))
    (matched : final.scratch.matching = .ofPerm permutation) :
    ∃ answer, solve cost options = .ok answer ∧
      answer.Records (Pairing.realPart permutation : Pairing cost.rows cost.cols) ∧
      answer.totalCost =
        finite ((Pairing.realPart permutation : Pairing cost.rows cost.cols).total cost.value) ∧
      answer.metrics = final.tally.metrics := by
  have checked : options.check = .ok () := Options.check_eq_ok (by rw [unlimited]; simp)
  have retains : (problem.answer cost options
      (problem.solution options.initialization).2).Retains cost options.costLimit
        (Pairing.realPart permutation) :=
    problem.retains_answer options.initialization (by rw [solved, matched])
  rw [solved, unlimited] at retains
  have all : (Pairing.realPart permutation).filter (cost.allows .top) =
      (Pairing.realPart permutation : Pairing cost.rows cost.cols) :=
    Pairing.filter_eq_self fun row col _ => CostMatrix.allows_top
  have none : ∀ (row : Fin cost.rows) (col : Fin cost.cols),
      cost.excludes .top row col = false := by
    intro row col
    have allowed : cost.allows .top row col = true := CostMatrix.allows_top
    rwa [CostMatrix.allows_eq_not_excludes, Bool.not_eq_true'] at allowed
  have excluded : (problem.answer cost options final).metrics.excludedByLimit = 0 :=
    retains.excluded_eq.trans (Pairing.size_filter_eq_zero fun row col _ => none row col)
  have before : final.tally.metrics.excludedByLimit = 0 := by
    have untouched := excludedByLimit_solveSquare problem.matrix options.initialization
      (Scratch.nothing.cleared problem.dimension) {}
    rwa [show solveSquare _ _ _ _ = _ from solved] at untouched
  have solution := solve_eq_ok_iff.mpr ⟨checked, problem, made,
    SquareProblem.exists_reserve_of_ofCost made, by rw [solved], rfl⟩
  rw [solved] at solution
  refine ⟨_, solution, all ▸ retains.records, all ▸ retains.totalCost_eq, ?_⟩
  calc (problem.answer cost options final).metrics
    _ = { final.tally.metrics with
          excludedByLimit := (problem.answer cost options final).metrics.excludedByLimit } := rfl
    _ = { final.tally.metrics with excludedByLimit := 0 } := by rw [excluded]
    _ = final.tally.metrics := by rw [← before]

/-- Solved without a limit, a matrix with at least as many columns as rows has the same pairs and
the same figures after its costs have been scaled and its rows shifted, ties included. The total is
scaled with the costs and shifted by all rows. The square has to fit into memory. -/
theorem solve_rescaled (positive : 0 < scale) (shift : Fin cost.rows → ℚ)
    (wide : cost.rows ≤ cost.cols) (shape : cost.isSquare = true ∨ options.extendCost = true)
    (unlimited : options.costLimit = .top)
    (space : cost.isSquare = true ∨
      (SquareProblem.room cost.dimension : Except (Refusal ExactCost) Unit) = .ok ()) :
    ∃ (answer answer' : Assignment ExactCost) (total : ℚ),
      solve cost options = .ok answer ∧
      solve (cost.rescaled scale shift) options = .ok answer' ∧
      answer'.rowToCol = answer.rowToCol ∧ answer'.colToRow = answer.colToRow ∧
      answer'.metrics = answer.metrics ∧
      answer.totalCost = finite total ∧
      answer'.totalCost = finite (scale * total + ∑ row, shift row) := by
  obtain ⟨n, matrix, matrix', log, log', amounts, made, made', rational, rescales, side⟩ :=
    SquareProblem.exists_ofCost_rescaled wide shape unlimited space scale shift
  obtain ⟨final, final', solved, solved', abreast⟩ := exists_solveSquare_rescaled positive rational
    rescales options.initialization (Scratch.nothing : Scratch ExactCost 0)
    (Scratch.nothing : Scratch ExactCost 0) {}
  obtain ⟨permutation, matched⟩ := exists_perm_of_solveSquare solved
  obtain ⟨answer, success, records, totalCost, metrics⟩ :=
    exists_solve_unlimited unlimited made solved matched
  obtain ⟨answer', success', records', totalCost', metrics'⟩ :=
    exists_solve_unlimited unlimited made' solved' (abreast.matching_eq.trans matched)
  have full : (Pairing.realPart permutation : Pairing cost.rows cost.cols).size = cost.rows := by
    have enough := Pairing.le_size_realPart (wide.trans_eq side.symm) side.ge permutation
    have few := (Pairing.realPart permutation : Pairing cost.rows cost.cols).size_le_rows
    omega
  refine ⟨answer, answer', _, success, success',
    records'.rowToCol_eq.trans records.rowToCol_eq.symm,
    records'.colToRow_eq.trans records.colToRow_eq.symm, ?_, totalCost, ?_⟩
  · rw [metrics', metrics, abreast.tally_eq]
  · rw [totalCost', ← Pairing.total_rescaled _ full]
    congr 2
    funext row col
    exact cost.value_rescaled scale shift row col

/-- A wide matrix with ties, whose smallest costs move to other rows when its rows are shifted. -/
theorem solve_rescaled_ties :
    let cost : CostMatrix ExactCost :=
      ⟨2, 3, #[finite 1, finite 1, finite 4, finite 1, finite 3, finite 3], by decide, by decide,
        rfl, by decide, by decide⟩
    let options : Options ExactCost := { extendCost := true, initialization := .zero }
    let shift : Fin 2 → ℚ := fun row => if row = 0 then 20 else -5
    ∃ answer answer' : Assignment ExactCost,
      solve cost options = .ok answer ∧ solve (cost.rescaled (5 / 2) shift) options = .ok answer' ∧
        answer.rowToCol = [some 1, some 0] ∧ answer.metrics.columnsScanned = 6 ∧
        answer'.rowToCol = answer.rowToCol ∧ answer'.metrics = answer.metrics ∧
        answer.totalCost = finite 2 ∧ answer'.totalCost = finite 20 := by
  intro cost options shift
  have positive : (0 : ℚ) < 5 / 2 := by norm_num
  have wide : cost.rows ≤ cost.cols := by decide
  have shape : cost.isSquare = true ∨ options.extendCost = true := .inr rfl
  have space : cost.isSquare = true ∨
      (SquareProblem.room cost.dimension : Except (Refusal ExactCost) Unit) = .ok () := .inr rfl
  obtain ⟨answer, answer', total, success, success', rows, _, metrics, totalCost, totalCost'⟩ :=
    solve_rescaled positive shift wide shape rfl space
  have seen : (solve cost options).toOption.map
      (fun answer => (answer.rowToCol, answer.metrics.columnsScanned, answer.totalCost)) =
        some ([some 1, some 0], 6, finite 2) := by
    decide +kernel
  rw [success] at seen
  obtain ⟨pairs, scanned, two⟩ := Option.some.inj seen |> Prod.mk.inj |>.imp_right Prod.mk.inj
  obtain rfl : total = 2 := ExactCost.finite.inj (totalCost.symm.trans two)
  have sum : ∑ row, shift row = 15 := by
    rw [Fin.sum_univ_two]
    norm_num [shift]
  refine ⟨answer, answer', success, success', pairs, scanned, rows, metrics, two, ?_⟩
  have twenty : 5 / 2 * 2 + ∑ row, shift row = 20 := by
    rw [sum]
    norm_num
  exact totalCost'.trans (congrArg finite twenty)

end LinearAssignment
