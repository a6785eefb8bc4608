import LinearAssignment.Proofs.Optimality
import LinearAssignment.Proofs.Parallel

/-! # Rescaled rows

A square is rescaled if all costs are multiplied by one positive scale and each row is shifted by an
amount of its own. Exact arithmetic takes the same course then, ties included. The potentials of
columns scale, and those of matched rows scale and shift. A free row keeps its start: at zero it
falls behind by the shift of the row, and then all distances of a search from that row are ahead by
as much; at its smallest cost it has been shifted already.
-/

namespace LinearAssignment

open CostNumber (infinity isFinite ofNat)
open ExactCost (finite)

/-! ## Rescaled costs -/

/-- A cost that is scaled and then shifted; the ends stay what they are. -/
def ExactCost.rescale (scale shift : ℚ) : ExactCost → ExactCost
  | bottom => bottom
  | finite a => finite (scale * a + shift)
  | top => top

namespace ExactCost

variable {scale shift : ℚ} {a b : ExactCost}

@[simp] theorem rescale_finite (a : ℚ) :
    (finite a).rescale scale shift = finite (scale * a + shift) := rfl

@[simp] theorem isFinite_rescale :
    CostNumber.isFinite (a.rescale scale shift) = CostNumber.isFinite a := by
  cases a with
  | bottom => rfl
  | finite a => rfl
  | top => rfl

theorem value_rescale (rational : CostNumber.isFinite a = true) :
    (a.rescale scale shift).value = scale * a.value + shift := by
  rw [eq_finite_value rational, rescale_finite, value_finite, value_finite]

theorem rescale_lt_rescale (positive : 0 < scale) :
    a.rescale scale shift < b.rescale scale shift ↔ a < b := by
  rcases a with _ | a | _ <;> rcases b with _ | b | _
  case finite.finite =>
    rw [rescale_finite, rescale_finite, finite_lt_finite, finite_lt_finite, add_lt_add_iff_right,
      mul_lt_mul_iff_right₀ positive]
  all_goals exact Iff.rfl

theorem rescale_injective (positive : 0 < scale) : Function.Injective (rescale scale shift) := by
  intro a b same
  rcases a with _ | a | _ <;> rcases b with _ | b | _
  case finite.finite =>
    rw [rescale_finite, rescale_finite, finite.injEq, add_left_inj] at same
    rw [mul_left_cancel₀ positive.ne' same]
  all_goals first | rfl | contradiction

/-- Rescaling does not change how costs compare. -/
theorem corresponds_rescale (positive : 0 < scale) (shift : ℚ) :
    CostNumber.Corresponds fun a b : ExactCost => b = a.rescale scale shift where
  infinity := rfl
  lt_iff := by
    rintro a b _ _ rfl rfl
    exact (rescale_lt_rescale positive).symm
  beq_eq := by
    rintro a b _ _ rfl rfl
    exact decide_eq_decide.mpr (rescale_injective positive).eq_iff.symm
  isFinite_eq := by
    rintro a _ rfl
    exact isFinite_rescale.symm

end ExactCost

variable {n : Nat} {matrix matrix' : SquareMatrix ExactCost n}
  {potentials potentials' : Potentials ExactCost n} {matching flipped : Matching n}
  {search search' : Search ExactCost n} {origin sink row col : Fin n} {length length' scale : ℚ}
  {shift ahead : Fin n → ℚ}

/-- One square is the other, rescaled. -/
def SquareMatrix.Rescales (matrix matrix' : SquareMatrix ExactCost n) (scale : ℚ)
    (shift : Fin n → ℚ) : Prop :=
  ∀ row col, matrix'.get row col = (matrix.get row col).rescale scale (shift row)

theorem SquareMatrix.Rescales.rational (rescales : matrix.Rescales matrix' scale shift)
    (rational : matrix.Rational) : matrix'.Rational := by
  intro row col
  rw [rescales, ExactCost.isFinite_rescale]
  exact rational row col

/-- Potentials that are rescaled with their square, except that free rows are ahead of theirs. -/
structure Potentials.Rescaled (potentials potentials' : Potentials ExactCost n)
    (matching : Matching n) (scale : ℚ) (shift ahead : Fin n → ℚ) : Prop where
  row_matched : ∀ row, matching.colOf.get row ≠ none →
    (potentials'.row.get row).value = scale * (potentials.row.get row).value + shift row
  row_free : ∀ row, matching.colOf.get row = none →
    (potentials'.row.get row).value + ahead row =
      scale * (potentials.row.get row).value + shift row
  col : ∀ col, (potentials'.col.get col).value = scale * (potentials.col.get col).value

namespace Potentials.Rescaled

variable (rescaled : potentials.Rescaled potentials' matching scale shift ahead)

include rescaled

theorem reduced_of_matched (rational : matrix.Rational)
    (rescales : matrix.Rescales matrix' scale shift) (matched : matching.colOf.get row ≠ none)
    (col : Fin n) :
    reduced matrix' potentials' row col = scale * reduced matrix potentials row col := by
  rw [reduced, reduced, rescales, ExactCost.value_rescale (rational row col),
    rescaled.row_matched row matched, rescaled.col]
  ring

theorem reduced_of_free (rational : matrix.Rational)
    (rescales : matrix.Rescales matrix' scale shift) (free : matching.colOf.get row = none)
    (col : Fin n) : reduced matrix' potentials' row col =
      scale * reduced matrix potentials row col + ahead row := by
  have price := rescaled.row_free row free
  rw [reduced, reduced, rescales, ExactCost.value_rescale (rational row col), rescaled.col]
  linarith

/-- All distances of a search from a free row are ahead by as much as that row is. -/
theorem parallel (positive : 0 < scale) (rational : matrix.Rational)
    (rescales : matrix.Rescales matrix' scale shift) (priced : Priced matrix potentials matching)
    (prices' : potentials'.Rational) (free : matching.colOf.get origin = none) :
    Search.Parallel (fun a b => b = a.rescale scale (ahead origin)) matrix potentials matrix'
      potentials' matching origin where
  corresponds := ExactCost.corresponds_rescale positive (ahead origin)
  lengths := by
    intro unsettled search row reached reached' reachable goesOn col
    rcases goesOn with ⟨rfl, rfl, rfl⟩ | ⟨⟨owned, owner⟩, rfl⟩
    · rw [ExactCost.ofNat_zero, Search.candidate_eq (rescales.rational rational) prices',
        Search.candidate_eq rational priced.rational, ExactCost.rescale_finite,
        rescaled.reduced_of_free rational rescales free]
      congr 1
      ring
    · have matched : matching.colOf.get row ≠ none := by
        rw [(priced.consistent row owned).mpr owner]
        exact Option.some_ne_none _
      obtain ⟨level, rfl, _⟩ :=
        reachable.measured rational priced.rational priced.consistent free priced.feasible
      rw [ExactCost.rescale_finite, Search.candidate_eq (rescales.rational rational) prices',
        Search.candidate_eq rational priced.rational, ExactCost.rescale_finite,
        rescaled.reduced_of_matched rational rescales matched]
      congr 1
      ring

/-- Shifting the potentials after two searches that are alike makes up for what the first row was
ahead. -/
theorem shifted (ended : search.Ended matrix potentials matching origin sink length)
    (ended' : search'.Ended matrix' potentials' matching origin sink length')
    (alike : search.Alike (fun a b => b = a.rescale scale (ahead origin)) search')
    (grows : matching.Grows flipped origin sink) :
    (potentials.shifted search matching origin sink).Rescaled
      (potentials'.shifted search' matching origin sink) flipped scale shift ahead := by
  have distance : ∀ {col d}, search.distance.get col = finite d →
      search'.distance.get col = finite (scale * d + ahead origin) := by
    intro col d known
    rw [alike.distance col, known, ExactCost.rescale_finite]
  obtain rfl : length' = scale * length + ahead origin :=
    ExactCost.finite.inj (ended'.distance.symm.trans (distance ended.distance))
  have unreached : ∀ {row}, ¬ search.Reaches matching origin row →
      ¬ search'.Reaches matching origin row := by
    intro row
    rw [Search.Reaches, Search.Reaches, alike.visited]
    exact id
  refine ⟨fun row matched => ?_, fun row free => ?_, fun col => ?_⟩
  · by_cases reaches : search.Reaches matching origin row
    · obtain ⟨d, reachesAt⟩ := ended.reaches_iff.mp reaches
      rw [ended.shifted_row_of_reachesAt reachesAt]
      rcases reachesAt with ⟨rfl, rfl⟩ | ⟨col, visited, owned, known⟩
      · rw [ended'.shifted_row_of_reachesAt (.inl ⟨rfl, rfl⟩), ExactCost.value_finite,
          ExactCost.value_finite]
        linarith [rescaled.row_free row ended.free]
      · rw [ended'.shifted_row_of_reachesAt (.inr ⟨col, alike.visited ▸ visited, owned,
          distance known⟩), ExactCost.value_finite, ExactCost.value_finite]
        have before : matching.colOf.get row ≠ none := by
          rw [owned]
          exact Option.some_ne_none _
        rw [rescaled.row_matched row before]
        ring
    · have before : matching.colOf.get row ≠ none := fun free =>
        matched ((grows.colOf_eq_none_iff row).mpr ⟨free, fun same => reaches (.inl same)⟩)
      rw [potentials.shifted_row_of_not_reaches search reaches,
        potentials'.shifted_row_of_not_reaches search' (unreached reaches),
        rescaled.row_matched row before]
  · obtain ⟨before, notOrigin⟩ := (grows.colOf_eq_none_iff row).mp free
    rw [potentials.shifted_row_of_free search before notOrigin,
      potentials'.shifted_row_of_free search' before notOrigin]
    exact rescaled.row_free row before
  · cases visited : search.visited.get col with
    | true =>
      obtain ⟨d, _, known⟩ := ended.measured.settled col visited
      rw [ended.shifted_col_of_visited visited known,
        ended'.shifted_col_of_visited (alike.visited ▸ visited) (distance known),
        ExactCost.value_finite, ExactCost.value_finite, rescaled.col]
      ring
    | false =>
      rw [potentials.shifted_col_of_unvisited search visited,
        potentials'.shifted_col_of_unvisited search' (alike.visited ▸ visited), rescaled.col]

end Potentials.Rescaled

/-! ## Rescaled solves -/

namespace Progress

variable {progress progress' : Progress ExactCost n} {initialization : DualStart}

/-- Two solves under way, the second of the rescaled square. -/
structure Rescaled (matrix matrix' : SquareMatrix ExactCost n) (scale : ℚ) (shift ahead : Fin n → ℚ)
    (progress progress' : Progress ExactCost n) : Prop where
  abreast : progress.Abreast progress'
  priced : Priced matrix progress.scratch.potentials progress.scratch.matching
  priced' : Priced matrix' progress'.scratch.potentials progress.scratch.matching
  rescaled : progress.scratch.potentials.Rescaled progress'.scratch.potentials
    progress.scratch.matching scale shift ahead

/-- How far free rows are ahead of rescaled potentials after a start. -/
def aheadAtStart (initialization : DualStart) (shift : Fin n → ℚ) : Fin n → ℚ :=
  match initialization with
  | .zero => shift
  | .rowReduction => fun _ => 0

/-- Row minima are attained at the same pairs. -/
theorem tests_of_rescales (positive : 0 < scale) (rescales : matrix.Rescales matrix' scale shift)
    (row col : Fin n) : (matrix'.get row col == matrix'.rowMinimum row) =
      (matrix.get row col == matrix.rowMinimum row) := by
  have corresponds := ExactCost.corresponds_rescale positive (shift row)
  exact (corresponds.beq_eq (rescales row col) (corresponds.rowMinimum (rescales row))).symm

theorem Rescaled.startAt {m m' : Nat} (positive : 0 < scale) (rational : matrix.Rational)
    (rescales : matrix.Rescales matrix' scale shift) (initialization : DualStart)
    (scratch : Scratch ExactCost m) (scratch' : Scratch ExactCost m') (tally : Tally) :
    Rescaled matrix matrix' scale shift (aheadAtStart initialization shift)
      ((Progress.begin (scratch.cleared n) tally).startAt matrix initialization)
      ((Progress.begin (scratch'.cleared n) tally).startAt matrix' initialization) := by
  have abreast := (Abreast.begin scratch scratch' tally).startAt
    (tests_of_rescales positive rescales) initialization
  have start := Reduced.startAt matrix initialization scratch tally
  have start' := Reduced.startAt matrix' initialization scratch' tally
  have priced := start.isPriced rational
  have priced' := start'.isPriced (rescales.rational rational)
  rw [IsPriced, abreast.matching_eq] at priced'
  refine ⟨abreast, priced, priced', ?_⟩
  have col : ∀ col, (((Progress.begin (scratch'.cleared n) tally).startAt matrix'
      initialization).scratch.potentials.col.get col).value =
      scale * (((Progress.begin (scratch.cleared n) tally).startAt matrix
        initialization).scratch.potentials.col.get col).value := by
    intro col
    rw [start.col_eq, start'.col_eq, ExactCost.ofNat_zero, ExactCost.value_finite, mul_zero]
  cases initialization with
  | zero =>
    refine ⟨fun row matched => absurd (start.free row List.not_mem_nil) matched, fun row _ => ?_,
      col⟩
    rw [start.row_eq, start'.row_eq, if_neg List.not_mem_nil, if_neg List.not_mem_nil,
      ExactCost.ofNat_zero, ExactCost.value_finite, aheadAtStart]
    ring
  | rowReduction =>
    have minimum : ∀ row,
        matrix'.rowMinimum row = (matrix.rowMinimum row).rescale scale (shift row) :=
      fun row => (ExactCost.corresponds_rescale positive (shift row)).rowMinimum (rescales row)
    have rows : ∀ row, (((Progress.begin (scratch'.cleared n) tally).startAt matrix'
        .rowReduction).scratch.potentials.row.get row).value =
        scale * (((Progress.begin (scratch.cleared n) tally).startAt matrix
          .rowReduction).scratch.potentials.row.get row).value + shift row := by
      intro row
      have finite := priced.rational.row row
      rw [start.row_eq, if_pos (List.mem_finRange row)] at finite
      rw [start.row_eq, start'.row_eq, if_pos (List.mem_finRange row),
        if_pos (List.mem_finRange row), minimum, ExactCost.value_rescale finite]
    exact ⟨fun row _ => rows row, fun row _ => (add_zero _).trans (rows row), col⟩

/-- Two augmentations find the same path. -/
theorem Rescaled.augment (positive : 0 < scale) (rational : matrix.Rational)
    (rescales : matrix.Rescales matrix' scale shift)
    (rescaled : Rescaled matrix matrix' scale shift ahead progress progress')
    (free : progress.scratch.matching.colOf.get row = none) :
    ∃ next next', progress.augment matrix row = (true, next) ∧
      progress'.augment matrix' row = (true, next') ∧
      Rescaled matrix matrix' scale shift ahead next next' := by
  obtain ⟨search, sink, length, found, ended⟩ :=
    rescaled.priced.exists_ended rational free progress.scratch.search
  obtain ⟨search', found', alike, outcome, outcome'⟩ := rescaled.abreast.augment
    (rescaled.rescaled.parallel positive rational rescales rescaled.priced
      rescaled.priced'.rational free) found
  rw [rescaled.abreast.matching_eq] at found'
  obtain ⟨_, _, length', again, ended'⟩ := rescaled.priced'.exists_ended
    (rescales.rational rational) free progress'.scratch.search
  cases found'.symm.trans again
  have abreast := rescaled.abreast.afterPath alike row sink
  have priced' := rescaled.priced'.shifted found' ended'
  have shifted := rescaled.rescaled.shifted ended ended' alike
    (Matching.grows_assignAll_path rescaled.priced.consistent free found)
  refine ⟨_, _, outcome, outcome', abreast, rescaled.priced.shifted found ended, ?_, ?_⟩
  · rw [← alike.path_eq] at priced'
    simpa only [afterPath, rescaled.abreast.matching_eq] using priced'
  · simpa only [afterPath, rescaled.abreast.matching_eq] using shifted

end Progress

/-- Two squares, one of them rescaled, are solved by the same pairs, and with the same figures. -/
theorem exists_solveSquare_rescaled {m m' : Nat} (positive : 0 < scale)
    (rational : matrix.Rational) (rescales : matrix.Rescales matrix' scale shift)
    (initialization : DualStart) (scratch : Scratch ExactCost m) (scratch' : Scratch ExactCost m')
    (tally : Tally) :
    ∃ final final', solveSquare matrix initialization (scratch.cleared n) tally = (none, final) ∧
      solveSquare matrix' initialization (scratch'.cleared n) tally = (none, final') ∧
      final.Abreast final' := by
  obtain ⟨final, final', solved, solved', rescaled⟩ := Progress.augmentAll_abreast
    Progress.Rescaled.abreast (Progress.Rescaled.augment positive rational rescales)
    (List.finRange n) (.startAt positive rational rescales initialization scratch scratch' tally)
  exact ⟨final, final', solved, solved', rescaled.abreast⟩

end LinearAssignment
