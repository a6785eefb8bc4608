import LinearAssignment.Proofs.Checked.Search
import LinearAssignment.Proofs.Lifecycle
import LinearAssignment.Proofs.Retention

/-! # The figures of a solve add up

Every row is matched once, by the start or by an augmentation, and an augmentation settles at most
one column more than there are matched rows. The pairs of a permutation inside the matrix are either
retained or counted as excluded; a filled square has one for every row or every column, an extended
one may have fewer. None of this depends on the arithmetic.
-/

namespace LinearAssignment

open CostNumber (ofNat)

variable {κ : Type} [CostNumber κ] {m n : Nat} {matrix : SquareMatrix κ n}

/-! ## Matched rows -/

namespace Matching

variable {before after : Matching n} {row col : Fin n}

@[simp] theorem matchedRows_empty : (empty : Matching n).matchedRows = 0 := by
  simp [matchedRows]

@[simp] theorem matchedRows_ofPerm (permutation : Equiv.Perm (Fin n)) :
    (ofPerm permutation).matchedRows = n := by
  simp [matchedRows]

/-- Where one more row is matched, there is one matched row more. -/
theorem matchedRows_succ (free : before.colOf.get row = none)
    (unmatched : ∀ other, after.colOf.get other = none ↔
      before.colOf.get other = none ∧ other ≠ row) :
    after.matchedRows = before.matchedRows + 1 := by
  have count : ∀ rows : List (Fin n),
      (rows.countP fun row => (after.colOf.get row).isSome) =
        (rows.countP fun row => (before.colOf.get row).isSome) + rows.count row := by
    intro rows
    induction rows with
    | nil => rfl
    | cons head rest ih =>
      rw [List.countP_cons, List.countP_cons, List.count_cons, ih]
      by_cases same : head = row
      · have matched : (after.colOf.get head).isSome = true :=
          Option.isSome_iff_ne_none.mpr fun open' => ((unmatched head).mp open').2 same
        simp [same ▸ matched, same, free]
        omega
      · have kept : (after.colOf.get head).isSome = (before.colOf.get head).isSome := by
          rw [Bool.eq_iff_iff, Option.isSome_iff_ne_none, Option.isSome_iff_ne_none, ne_eq,
            unmatched, and_iff_left same]
        simp [kept, same]
        omega
  rw [matchedRows, matchedRows, count,
    List.count_eq_one_of_mem (List.nodup_finRange n) (List.mem_finRange row)]

theorem matchedRows_assign (free : before.colOf.get row = none) :
    (before.assign row col).matchedRows = before.matchedRows + 1 := by
  refine matchedRows_succ free fun other => ?_
  rw [colOf_assign]
  split_ifs with same
  · simp [same]
  · simp [same]

end Matching

/-- A search that ends at a column settles that one and at most every matched column. -/
theorem Search.size_of_found [LawfulCost κ] {potentials : Potentials κ n} {matching : Matching n}
    {scratch search : Search κ n} {row sink : Fin n} (consistent : matching.Consistent)
    (found : fromRow matrix potentials matching scratch row = (search, some sink)) :
    1 ≤ search.scanned.size ∧ search.scanned.size ≤ matching.matchedRows + 1 := by
  have ends := fromRow_ends matrix potentials matching scratch row
  rw [found] at ends
  obtain ⟨_, before, _, _, reachable, round, _⟩ := ends
  have settled := reachable.size_le_matchedRows consistent
  rw [round.scanned, Array.size_push]
  omega

/-! ## The run -/

namespace Progress

variable {progress next : Progress κ n} {row : Fin n} {greedy : Nat}

/-- The figures of a solve that has matched so many rows at its start. -/
structure Accounts (greedy : Nat) (progress : Progress κ n) : Prop where
  consistent : progress.scratch.matching.Consistent
  dimension_eq : progress.tally.metrics.dimension = n
  greedy_eq : progress.tally.metrics.greedyAssignments = greedy
  matchedRows_eq : progress.scratch.matching.matchedRows =
    greedy + progress.tally.metrics.augmentations
  augmentations_le :
    progress.tally.metrics.augmentations ≤ progress.tally.metrics.columnsScanned
  scanned_le : 2 * progress.tally.metrics.columnsScanned + greedy * (greedy + 1) ≤
    progress.scratch.matching.matchedRows * (progress.scratch.matching.matchedRows + 1)

/-- The start counts the rows that it matches and nothing else. -/
theorem Reduced.tally_reduceRows (reduced : progress.Reduced matrix [])
    (empty : progress.scratch.matching = .empty) :
    (progress.reduceRows matrix).tally =
      { progress.tally with
        metrics.greedyAssignments := progress.tally.metrics.greedyAssignments +
          (progress.reduceRows matrix).scratch.matching.matchedRows } := by
  have all : ∀ rows : List (Fin n), rows.Nodup →
      (rows.foldl (Progress.reduceRow matrix) progress).tally =
        { progress.tally with
          metrics.greedyAssignments := progress.tally.metrics.greedyAssignments +
            (rows.foldl (Progress.reduceRow matrix) progress).scratch.matching.matchedRows } := by
    intro rows
    induction rows using List.reverseRecOn with
    | nil => simp [empty]
    | append_singleton done row ih =>
      intro distinct
      rw [List.nodup_append] at distinct
      rw [List.foldl_append, List.foldl_cons, List.foldl_nil]
      have fresh : row ∉ done := fun member => distinct.2.2 row member row (by simp) rfl
      have free := (reduced.foldl_reduceRow distinct.1).free row fresh
      obtain ⟨_, _, ⟨_, same, tally⟩ | ⟨col, _, assigned, tally⟩⟩ :=
        reduceRow_cases matrix (done.foldl (Progress.reduceRow matrix) progress) row
      · rw [tally, same, ih distinct.1]
      · rw [tally, assigned, ih distinct.1, Matching.matchedRows_assign free]
        rfl
  exact all _ (List.nodup_finRange n)

/-- Both starts account for what they do; from zero potentials that is nothing. -/
theorem Accounts.startAt (matrix : SquareMatrix κ n) (initialization : DualStart)
    (scratch : Scratch κ m) :
    ∃ greedy, (initialization = .zero → greedy = 0) ∧
      ((Progress.begin (scratch.cleared n) {}).startAt matrix initialization).Accounts greedy := by
  have start := Reduced.begin matrix scratch {}
  cases initialization with
  | zero =>
    exact ⟨0, fun _ => rfl, start.consistent, rfl, rfl, Matching.matchedRows_empty, le_rfl,
      Nat.zero_le _⟩
  | rowReduction =>
    have tally := start.tally_reduceRows rfl
    refine ⟨_, fun zero => by contradiction, start.reduceRows.consistent, ?_, rfl, ?_, ?_, ?_⟩
    · exact congrArg (·.metrics.dimension) tally
    · simp only [Progress.startAt, tally]
      exact (Nat.zero_add _).symm
    · simp only [Progress.startAt, tally]
      exact le_rfl
    · simp only [Progress.startAt, tally]
      rw [show (Progress.begin (scratch.cleared n) {}).tally.metrics.greedyAssignments = 0
        from rfl, Nat.zero_add]
      exact Nat.le_of_eq (Nat.zero_add _)

/-- An augmentation that finds a path counts itself and the columns that it has settled. -/
theorem Accounts.augment [LawfulCost κ] (accounts : progress.Accounts greedy)
    (free : progress.scratch.matching.colOf.get row = none)
    (success : progress.augment matrix row = (true, next)) : next.Accounts greedy := by
  rcases augment_cases matrix row progress with ⟨search, sink, found, outcome⟩ | ⟨_, _, outcome⟩
  · cases success.symm.trans outcome
    have grows := Matching.grows_assignAll_path accounts.consistent free found
    have more := Matching.matchedRows_succ free grows.colOf_eq_none_iff
    obtain ⟨some, few⟩ := Search.size_of_found accounts.consistent found
    have matched := accounts.matchedRows_eq
    refine ⟨grows.consistent, accounts.dimension_eq, accounts.greedy_eq, ?_, ?_, ?_⟩
    · exact more.trans (congrArg (· + 1) matched)
    · exact Nat.add_le_add accounts.augmentations_le some
    · have bound := accounts.scanned_le
      simp only [afterPath, Tally.countAugmentation, Tally.countScans, more]
      nlinarith
  · cases success.symm.trans outcome

end Progress

/-- A solved square has matched every row once and accounts for all of them. -/
theorem exists_accounts_of_solveSquare [LawfulCost κ] {initialization : DualStart}
    {scratch : Scratch κ m} {final : Progress κ n}
    (success : solveSquare matrix initialization (scratch.cleared n) {} = (none, final)) :
    ∃ greedy, (initialization = .zero → greedy = 0) ∧ final.Accounts greedy ∧
      final.scratch.matching.matchedRows = n := by
  obtain ⟨greedy, none, start⟩ := Progress.Accounts.startAt matrix initialization scratch
  obtain ⟨permutation, matched⟩ := exists_perm_of_solveSquare success
  refine ⟨greedy, none, ?_, by rw [matched, Matching.matchedRows_ofPerm]⟩
  exact Progress.augmentAll_keeps Progress.Accounts.augment start success

/-! ## Retained and excluded pairs -/

namespace Extraction

variable {cost : CostMatrix κ} {permutation : Equiv.Perm (Fin n)} {limit : κ}
  {extraction : Extraction κ cost.rows cost.cols}

/-- A row with a real column either retains or drops it. -/
private theorem kept_add_drops (cost : CostMatrix κ) (colOf : Vector (Option (Fin n)) n) (limit : κ)
    (row : Fin cost.rows) :
    ((if (kept? cost colOf limit row).isSome then 1 else 0) +
        if drops cost colOf limit row then 1 else 0) =
      if (realColumn? cost colOf row).isSome then 1 else 0 := by
  cases real : realColumn? cost colOf row with
  | none => simp [kept?, drops, real]
  | some col =>
    by_cases above : limit < cost.get row col
    · simp [kept?, drops, real, above]
    · simp [kept?, drops, real, above]

/-- Every pair of the permutation inside the matrix is retained or counted as excluded. -/
theorem Collects.matched_add_excluded
    (collects : extraction.Collects cost (Matching.ofPerm permutation).colOf limit
      (List.finRange cost.rows)) (metrics : Metrics) (certificate : Option (Certificate κ)) :
    (extraction.toAssignment metrics certificate).matchedCount + extraction.excluded =
      (Pairing.realPart permutation : Pairing cost.rows cost.cols).size := by
  have partners : (extraction.toAssignment metrics certificate).rowToCol =
      (List.finRange cost.rows).map fun row =>
        (kept? cost (Matching.ofPerm permutation).colOf limit row).map Fin.val := by
    refine List.ext_getElem (by simp [toAssignment]) fun index bound bound' => ?_
    rw [List.length_map, List.length_finRange] at bound'
    have entry := collects.rowToCol ⟨index, bound'⟩
    rw [if_pos (List.mem_finRange _)] at entry
    simp only [toAssignment, List.getElem_map, List.getElem_finRange, Vector.getElem_toList]
    exact congrArg (Option.map Fin.val) entry
  rw [Assignment.matchedCount, partners, List.countP_map, collects.excluded,
    Pairing.size_eq_countP]
  induction List.finRange cost.rows with
  | nil => rfl
  | cons row rest ih =>
    have once := kept_add_drops cost (Matching.ofPerm permutation).colOf limit row
    rw [List.countP_cons, List.countP_cons, List.countP_cons, ← ih, Function.comp_apply,
      Option.isSome_map, ← realColumn?_eq_realPart]
    omega

end Extraction

/-- The figures of an answer account for the solve of a matrix under some options. -/
structure Assignment.AddsUp (answer : Assignment κ) (cost : CostMatrix κ) (options : Options κ) :
    Prop where
  dimension_eq : answer.metrics.dimension = squareSide cost options
  rows_eq : answer.metrics.greedyAssignments + answer.metrics.augmentations =
    answer.metrics.dimension
  greedy_eq_zero : options.initialization = .zero → answer.metrics.greedyAssignments = 0
  augmentations_le : answer.metrics.augmentations ≤ answer.metrics.columnsScanned
  scanned_le : answer.metrics.columnsScanned ≤
    (answer.metrics.dimension * (answer.metrics.dimension + 1) -
      answer.metrics.greedyAssignments * (answer.metrics.greedyAssignments + 1)) / 2
  pairs_le : answer.matchedCount + answer.metrics.excludedByLimit ≤ min cost.rows cost.cols
  pairs_eq : ¬ (options.limitStrategy = .augmented ∧ options.isLimited = true) →
    answer.matchedCount + answer.metrics.excludedByLimit = min cost.rows cost.cols

/-- The pairs of an answer, with those that are excluded, are the real part of its permutation. Of
excluded pairs there are so few that their count does not wrap. -/
theorem SquareProblem.pairs_of_answer (cost : CostMatrix κ) (options : Options κ)
    {problem : SquareProblem κ} {final : Progress κ problem.dimension}
    {permutation : Equiv.Perm (Fin problem.dimension)}
    (matched : final.scratch.matching = .ofPerm permutation)
    (before : final.tally.metrics.excludedByLimit = 0) :
    (problem.answer cost options final).matchedCount +
        (problem.answer cost options final).metrics.excludedByLimit =
      (Pairing.realPart permutation : Pairing cost.rows cost.cols).size := by
  have collects : (Extraction.ofSquare cost final.scratch.matching.colOf
      options.costLimit).Collects cost (Matching.ofPerm permutation).colOf options.costLimit
        (List.finRange cost.rows) := by
    rw [matched]
    exact Extraction.ofSquare_collects Extraction.row_unique
  have few : (Extraction.ofSquare cost final.scratch.matching.colOf options.costLimit).excluded <
      wordSize :=
    calc (Extraction.ofSquare cost final.scratch.matching.colOf options.costLimit).excluded
      _ = (List.finRange cost.rows).countP _ := collects.excluded
      _ ≤ (List.finRange cost.rows).length := List.countP_le_length
      _ = cost.rows := List.length_finRange
      _ ≤ cost.rows * cost.cols := Nat.le_mul_of_pos_right _ cost.cols_pos
      _ < wordSize := cost.size_lt
  have counted : (problem.answer cost options final).metrics.excludedByLimit =
      (Extraction.ofSquare cost final.scratch.matching.colOf options.costLimit).excluded := by
    change (final.tally.metrics.excludedByLimit + _) % wordSize = _
    rw [before, Nat.zero_add, Nat.mod_eq_of_lt few]
  rw [counted]
  exact collects.matched_add_excluded _ _

/-- The figures of every answer in rounded arithmetic add up, whatever the rounding does. -/
theorem addsUp_of_solve {cost : CostMatrix Float} {options : Options Float}
    {answer : Assignment Float} (success : solve cost options = .ok answer) :
    answer.AddsUp cost options := by
  obtain ⟨_, problem, made, _, solved, answered⟩ := solve_eq_ok_iff.mp success
  rcases solution : problem.solution options.initialization with ⟨stranded, final⟩
  rw [solution] at solved answered
  subst answered
  obtain rfl : stranded = none := solved
  obtain ⟨greedy, zero, accounts, complete⟩ := exists_accounts_of_solveSquare solution
  obtain ⟨permutation, matched⟩ := exists_perm_of_solveSquare solution
  have before : final.tally.metrics.excludedByLimit = 0 := by
    have untouched := excludedByLimit_solveSquare problem.matrix options.initialization
      (Scratch.nothing.cleared problem.dimension) {}
    rwa [show solveSquare _ _ _ _ = _ from solution] at untouched
  have pairs := SquareProblem.pairs_of_answer cost options matched before
  have side := SquareProblem.dimension_of_ofCost made
  obtain ⟨tall, wide⟩ := sides_le_squareSide cost options
  rw [← side] at tall wide
  have enough := Pairing.le_size_realPart tall wide permutation
  have rows := (Pairing.realPart permutation : Pairing cost.rows cost.cols).size_le_rows
  have cols := (Pairing.realPart permutation : Pairing cost.rows cost.cols).size_le_cols
  have matchedRows := accounts.matchedRows_eq
  have scanned := accounts.scanned_le
  rw [complete] at matchedRows scanned
  have dimension : (problem.answer cost options final).metrics.dimension = problem.dimension :=
    accounts.dimension_eq
  have start : (problem.answer cost options final).metrics.greedyAssignments = greedy :=
    accounts.greedy_eq
  refine ⟨dimension.trans side, ?_, fun isZero => start.trans (zero isZero),
    accounts.augmentations_le, ?_, ?_, fun unlimited => ?_⟩
  · rw [dimension, start]
    exact matchedRows.symm
  · rw [dimension, start, Nat.le_div_iff_mul_le two_pos]
    change final.tally.metrics.columnsScanned * 2 ≤ _
    omega
  · rw [pairs]
    exact le_min rows cols
  · rw [pairs]
    rw [squareSide, if_neg unlimited] at side
    omega

/-- A tall matrix, one of whose two pairs the limit excludes. -/
theorem addsUp_of_solve_tall :
    let cost : CostMatrix Float :=
      ⟨3, 2, #[4, -1, 3, 2, 0, 5], by decide, by decide, rfl, by decide, by decide +kernel⟩
    let options : Options Float := { extendCost := true, costLimit := -0.5 }
    ∃ answer, solve cost options = .ok answer ∧ answer.rowToCol = [some 1, none, none] ∧
      answer.metrics.excludedByLimit = 1 ∧ answer.AddsUp cost options := by
  intro cost options
  have seen : (solve cost options).toOption.map
      (fun answer => (answer.rowToCol, answer.metrics.excludedByLimit)) =
        some ([some 1, none, none], 1) := by
    decide +kernel
  cases success : solve cost options with
  | error refusal =>
    rw [success] at seen
    contradiction
  | ok answer =>
    rw [success] at seen
    obtain ⟨rows, excluded⟩ := Prod.mk.inj (Option.some.inj seen)
    exact ⟨answer, rfl, rows, excluded, addsUp_of_solve success⟩

end LinearAssignment
