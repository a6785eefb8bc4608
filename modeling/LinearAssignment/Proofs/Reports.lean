import LinearAssignment.Proofs.Accounts
import LinearAssignment.Proofs.Refusal

/-! # The reports of a solve replay it

A row that is matched stays matched, whatever paths are exchanged after it. So the searches of a
solve go once through the rows that the start has left open, in ascending order, and there is one
report for each of them, with figures that sum up to those of the answer. Around these reports stand
one for the making of the square, if it was copied, and those that close a solve with an answer. A
solve that strands a row has reported the searches before that row and nothing after them.
-/

namespace LinearAssignment

variable {κ : Type}

/-! ## Reports of searches -/

namespace LogEntry

/-- The row that a search has matched, if the report is one of a search. -/
def matchedRow? : LogEntry κ → Option Nat
  | augmented row .. => some row
  | _ => none

/-- How many columns a search has settled, if the report is one of a search. -/
def settledColumns : LogEntry κ → Nat
  | augmented _ _ scanned _ => scanned
  | _ => 0

end LogEntry

namespace Progress

variable {n : Nat} {before middle after : Progress κ n} {row : Fin n} {done rest : List (Fin n)}
  {searches others : List (LogEntry κ)}

/-- What the searches of some rows, one after the other, add to the reports and to the figures. -/
structure Replays (before after : Progress κ n) (done : List (Fin n))
    (searches : List (LogEntry κ)) : Prop where
  log : after.log.toList = before.log.toList ++ searches
  rows : searches.map LogEntry.matchedRow? = done.map (some ·.val)
  augmentations : after.tally.metrics.augmentations =
    before.tally.metrics.augmentations + searches.length
  columnsScanned : after.tally.metrics.columnsScanned =
    before.tally.metrics.columnsScanned + (searches.map LogEntry.settledColumns).sum

theorem Replays.refl (progress : Progress κ n) : progress.Replays progress [] [] :=
  ⟨(List.append_nil _).symm, rfl, rfl, rfl⟩

theorem Replays.trans (first : before.Replays middle done searches)
    (second : middle.Replays after rest others) :
    before.Replays after (done ++ rest) (searches ++ others) where
  log := by rw [second.log, first.log, List.append_assoc]
  rows := by rw [List.map_append, List.map_append, first.rows, second.rows]
  augmentations := by
    rw [second.augmentations, first.augmentations, List.length_append, Nat.add_assoc]
  columnsScanned := by
    rw [second.columnsScanned, first.columnsScanned, List.map_append, List.sum_append,
      Nat.add_assoc]

/-- A search that finds none leaves no report. -/
theorem Replays.afterSearch (progress : Progress κ n) (search : Search κ n) :
    progress.Replays (progress.afterSearch search) [] [] :=
  ⟨(List.append_nil _).symm, rfl, rfl, rfl⟩

/-- The rows of a list that have no column. -/
def openIn (progress : Progress κ n) (rows : List (Fin n)) : List (Fin n) :=
  rows.filter progress.scratch.matching.isFreeRow

/-- Matching a row leaves the others as they were. -/
theorem openIn_of_grows {col : Fin n}
    (grows : before.scratch.matching.Grows after.scratch.matching row col)
    (outside : row ∉ rest) : after.openIn rest = before.openIn rest := by
  refine List.filter_congr fun other member => ?_
  rw [Bool.eq_iff_iff, Matching.isFreeRow_iff, Matching.isFreeRow_iff, grows.colOf_eq_none_iff]
  refine and_iff_left ?_
  rintro rfl
  exact outside member

variable [CostNumber κ]

/-- A search that finds a path is reported with the columns that it counts. -/
theorem Replays.afterPath (progress : Progress κ n) (search : Search κ n) (row sink : Fin n) :
    ∃ report, progress.Replays (progress.afterPath search row sink) [row] [report] :=
  ⟨_, Array.toList_push, rfl, rfl, rfl⟩

/-- The searches go through the rows that are open at the start, up to one that is stranded. -/
theorem exists_replays [LawfulCost κ] (matrix : SquareMatrix κ n) {rows : List (Fin n)}
    (distinct : rows.Nodup) (consistent : before.scratch.matching.Consistent) :
    ∃ done searches, before.Replays (augmentAll matrix rows before).2 done searches ∧
      ((augmentAll matrix rows before).1 = none → before.openIn rows = done) ∧
      ∀ row, (augmentAll matrix rows before).1 = some row →
        ∃ rest, before.openIn rows = done ++ row :: rest := by
  induction rows generalizing before with
  | nil => exact ⟨[], [], .refl before, fun _ => rfl, by simp [augmentAll]⟩
  | cons row rows ih =>
    rw [List.nodup_cons] at distinct
    rw [augmentAll]
    by_cases free : before.scratch.matching.isFreeRow row = true
    · have first : before.openIn (row :: rows) = row :: before.openIn rows :=
        List.filter_cons_of_pos free
      rw [if_pos free, first]
      rcases augment_cases matrix row before with
        ⟨search, sink, found, outcome⟩ | ⟨search, _, outcome⟩
      · rw [outcome]
        have grows := Matching.grows_assignAll_path consistent (Matching.isFreeRow_iff.mp free)
          found
        obtain ⟨report, reported⟩ := Replays.afterPath before search row sink
        obtain ⟨done, searches, replays, complete, stranded⟩ :=
          @ih (before.afterPath search row sink) distinct.2 grows.consistent
        have same : (before.afterPath search row sink).openIn rows = before.openIn rows :=
          openIn_of_grows grows distinct.1
        rw [← same]
        refine ⟨row :: done, report :: searches, reported.trans replays, ?_, ?_⟩
        · exact fun none => congrArg (row :: ·) (complete none)
        · intro other some
          obtain ⟨rest, split⟩ := stranded other some
          exact ⟨rest, congrArg (row :: ·) split⟩
      · rw [outcome]
        refine ⟨[], [], .afterSearch before search, fun none => by contradiction, ?_⟩
        rintro other ⟨⟩
        exact ⟨_, rfl⟩
    · have skipped : before.openIn (row :: rows) = before.openIn rows :=
        List.filter_cons_of_neg free
      rw [if_neg free, skipped]
      exact ih distinct.2 consistent

/-! ## The start -/

theorem log_reduceRows (matrix : SquareMatrix κ n) (progress : Progress κ n) :
    (progress.reduceRows matrix).log = progress.log := by
  rw [reduceRows]
  induction List.finRange n generalizing progress with
  | nil => rfl
  | cons row rest ih =>
    obtain ⟨_, same, _⟩ := reduceRow_cases matrix progress row
    exact (ih _).trans same

end Progress

namespace SquareProblem

variable [CostNumber κ]

/-- The state of a solve when its searches begin. -/
def start (problem : SquareProblem κ) (initialization : DualStart) :
    Progress κ problem.dimension :=
  (Progress.begin (Scratch.nothing.cleared problem.dimension) {}).startAt problem.matrix
    initialization

/-- The rows that the start leaves without a column, in ascending order. -/
def openRows (problem : SquareProblem κ) (initialization : DualStart) :
    List (Fin problem.dimension) :=
  (problem.start initialization).openIn (List.finRange problem.dimension)

variable {problem : SquareProblem κ} {initialization : DualStart}

/-- From zero potentials all rows are open. -/
theorem openRows_zero (problem : SquareProblem κ) :
    problem.openRows .zero = List.finRange problem.dimension := by
  refine List.filter_eq_self.mpr fun row _ => ?_
  exact Matching.isFreeRow_iff.mpr (Matching.colOf_empty row)

theorem pairwise_openRows (problem : SquareProblem κ) (initialization : DualStart) :
    (problem.openRows initialization).Pairwise (· < ·) :=
  (List.pairwise_lt_finRange problem.dimension).filter _

/-- The start reports nothing and counts no search. -/
theorem log_start (problem : SquareProblem κ) (initialization : DualStart) :
    (problem.start initialization).log = #[] ∧
      (problem.start initialization).tally.metrics.augmentations = 0 ∧
      (problem.start initialization).tally.metrics.columnsScanned = 0 := by
  cases initialization with
  | zero => exact ⟨rfl, rfl, rfl⟩
  | rowReduction =>
    have start := Progress.Reduced.begin problem.matrix
      (Scratch.nothing : Scratch κ 0) {}
    have tally := start.tally_reduceRows rfl
    refine ⟨Progress.log_reduceRows problem.matrix _, ?_, ?_⟩
    · exact congrArg (·.metrics.augmentations) tally
    · exact congrArg (·.metrics.columnsScanned) tally

/-- What precedes an entry in an ascending list are the entries below it. -/
private theorem filter_lt_of_pairwise {rows done rest : List (Fin n)} {row : Fin n}
    (ascending : rows.Pairwise (· < ·)) (split : rows = done ++ row :: rest) :
    rows.filter (· < row) = done := by
  subst split
  rw [List.pairwise_append, List.pairwise_cons] at ascending
  obtain ⟨_, ⟨above, _⟩, below⟩ := ascending
  have first : done.filter (· < row) = done := List.filter_eq_self.mpr fun other member =>
    decide_eq_true (below other member row List.mem_cons_self)
  have last : (row :: rest).filter (· < row) = [] := by
    refine List.filter_eq_nil_iff.mpr fun other member => ?_
    rw [decide_eq_true_eq, not_lt]
    rcases List.mem_cons.mp member with rfl | member
    · exact le_rfl
    · exact (above other member).le
  rw [List.filter_append, first, last, List.append_nil]

/-- The searches of a square replay its open rows, all of them or those below a stranded one. -/
theorem exists_replays_solution [LawfulCost κ] (problem : SquareProblem κ)
    (initialization : DualStart) :
    ∃ done searches,
      (problem.start initialization).Replays (problem.solution initialization).2 done searches ∧
      ((problem.solution initialization).1 = none → done = problem.openRows initialization) ∧
      ∀ row, (problem.solution initialization).1 = some row →
        row ∈ problem.openRows initialization ∧
        done = (problem.openRows initialization).filter (· < row) := by
  have reduced := Progress.Reduced.startAt problem.matrix initialization Scratch.nothing {}
  obtain ⟨done, searches, replays, complete, stranded⟩ := Progress.exists_replays problem.matrix
    (List.nodup_finRange problem.dimension) reduced.consistent
  refine ⟨done, searches, replays, fun none => (complete none).symm, fun row some => ?_⟩
  obtain ⟨rest, split⟩ := stranded row some
  have split' : problem.openRows initialization = done ++ row :: rest := split
  refine ⟨split' ▸ by simp, ?_⟩
  exact (filter_lt_of_pairwise (problem.pairwise_openRows initialization) split').symm

/-! ## The square -/

/-- How the square of a matrix was made, with the report of it. A square matrix is taken as it is,
without a report; every copy is reported. -/
inductive Copied (cost : CostMatrix κ) (options : Options κ) :
    SquareProblem κ → List (LogEntry κ) → Prop where
  | asItIs (square : cost.rows = cost.cols) : Copied cost options (asItIs cost square) []
  | byPadding : Copied cost options (byPadding cost options.costLimit)
      [.padded cost.rows cost.cols cost.dimension (cost.sentinelCost options.costLimit)]
  | byExtension : Copied cost options (byExtension cost options.costLimit)
      [.extended cost.rows cost.cols (cost.rows + cost.cols) options.costLimit]

theorem copied_of_ofCost {cost : CostMatrix κ} {options : Options κ}
    (made : ofCost cost options = .ok problem) : Copied cost options problem problem.log := by
  obtain ⟨_, ⟨_, _, rfl⟩ | ⟨_, ⟨square, rfl⟩ | ⟨_, _, rfl⟩⟩⟩ := ofCost_cases made
  · exact .byExtension
  · exact .asItIs square
  · exact .byPadding

end SquareProblem

/-! ## The whole log -/

section

variable [CostNumber κ]

/-- Reports of the searches of some rows, in their order, and what they account for in an answer. -/
structure Assignment.Replayed (answer : Assignment κ) (rows : List Nat)
    (searches : List (LogEntry κ)) : Prop where
  rows_eq : searches.map LogEntry.matchedRow? = rows.map some
  augmentations_eq : answer.metrics.augmentations = searches.length
  columnsScanned_eq : answer.metrics.columnsScanned =
    (searches.map LogEntry.settledColumns).sum

/-- The reports that stand before the last one if something is to be told of an answer: that its
certificate does not show it to be optimal, and that the limit has excluded pairs. -/
structure Assignment.Remarked (answer : Assignment κ) (cost : CostMatrix κ) (options : Options κ)
    (failure exclusion : List (LogEntry κ)) : Prop where
  verified : answer.certificate.isSome = options.verify
  failure_eq : failure = (answer.certificate.toList.filter (!·.isOptimal)).map fun certificate =>
    .certificateFailed certificate.dualityGap certificate.tolerance
  exclusion_eq : exclusion = if 0 < answer.metrics.excludedByLimit then
    [.limitExcluded options.costLimit answer.metrics.excludedByLimit cost.pairBound] else []

/-- The report that a solve with an answer ends with. -/
def Assignment.summary (answer : Assignment κ) (cost : CostMatrix κ) : LogEntry κ :=
  .solved cost.rows cost.cols answer.metrics.dimension answer.totalCost
    answer.metrics.augmentations answer.metrics.greedyAssignments

/-- The reports that follow the searches. -/
theorem closingReports_eq (answer : Assignment κ) (cost : CostMatrix κ) (options : Options κ)
    (verified : answer.certificate.isSome = options.verify) :
    ∃ failure exclusion, answer.Remarked cost options failure exclusion ∧
      closingReports cost options answer = failure ++ exclusion ++ [answer.summary cost] := by
  refine ⟨_, _, ⟨verified, rfl, rfl⟩, ?_⟩
  rw [closingReports]
  cases answer.certificate with
  | none => rfl
  | some certificate => cases optimal : certificate.isOptimal <;> simp [optimal] <;> rfl

theorem SquareProblem.verified_answer (problem : SquareProblem κ) (cost : CostMatrix κ)
    (options : Options κ) (progress : Progress κ problem.dimension) :
    (problem.answer cost options progress).certificate.isSome = options.verify := by
  change (if options.verify then some _ else none).isSome = options.verify
  split_ifs with verify
  · exact verify.symm
  · exact (Bool.eq_false_iff.mpr verify).symm

variable {cost : CostMatrix κ} {options : Options κ} {problem : SquareProblem κ}
  {final : Progress κ problem.dimension}

/-- A solve whose square is solved gives an answer. -/
theorem solveIn_of_solved (workspace : Workspace κ) (checked : options.check = .ok ())
    (made : SquareProblem.ofCost cost options = .ok problem)
    (solved : problem.solution options.initialization = (none, final)) :
    (solveIn workspace cost options).result = .ok (problem.answer cost options final) ∧
      (solveIn workspace cost options).log = problem.log ++ final.log.toList ++
        closingReports cost options (problem.answer cost options final) := by
  rw [SquareProblem.solution] at solved
  rw [solveIn_eq_run_of_ofCost workspace checked made, SquareProblem.run, solved]
  exact ⟨rfl, rfl⟩

/-- A solve that strands a row in its square is refused. -/
theorem solveIn_of_stranded {row : Fin problem.dimension} (workspace : Workspace κ)
    (checked : options.check = .ok ())
    (made : SquareProblem.ofCost cost options = .ok problem)
    (ended : problem.solution options.initialization = (some row, final)) :
    (solveIn workspace cost options).result = .error (.stranded row.val) ∧
      (solveIn workspace cost options).log = problem.log ++ final.log.toList := by
  rw [SquareProblem.solution] at ended
  rw [solveIn_eq_run_of_ofCost workspace checked made, SquareProblem.run, ended]
  exact ⟨rfl, rfl⟩

end

/-- The log replays the solve. After the making of the square, if it was copied, come the searches
of the rows that the start has left open, then what is to be remarked and the summary; a solve that
strands a row has searched the open rows below it and reports nothing else. -/
theorem log_of_solveIn {cost : CostMatrix Float} {options : Options Float}
    {problem : SquareProblem Float} (workspace : Workspace Float)
    (checked : options.check = .ok ())
    (made : SquareProblem.ofCost cost options = .ok problem) :
    let run := solveIn workspace cost options
    let rows := (problem.openRows options.initialization).map Fin.val
    rows.Pairwise (· < ·) ∧
    (options.initialization = .zero → rows = List.range problem.dimension) ∧
    ∃ making searches, problem.Copied cost options making ∧
      ((∃ answer failure exclusion, run.result = .ok answer ∧
          answer.Replayed rows searches ∧ answer.Remarked cost options failure exclusion ∧
          run.log = making ++ searches ++ failure ++ exclusion ++ [answer.summary cost]) ∨
        ∃ row ∈ rows, run.result = .error (.stranded row) ∧
          searches.map LogEntry.matchedRow? = (rows.filter (· < row)).map some ∧
          run.log = making ++ searches) := by
  intro run rows
  refine ⟨List.pairwise_map.mpr (problem.pairwise_openRows _), fun zero => ?_, ?_⟩
  · have all : rows = (problem.openRows options.initialization).map Fin.val := rfl
    rw [all, zero, SquareProblem.openRows_zero, List.map_coe_finRange_eq_range]
  obtain ⟨done, searches, replays, complete, stranded⟩ :=
    problem.exists_replays_solution options.initialization
  obtain ⟨silent, uncounted, unscanned⟩ := problem.log_start options.initialization
  have reported := replays.log
  have augmentations := replays.augmentations
  have columnsScanned := replays.columnsScanned
  rw [silent, List.nil_append] at reported
  rw [uncounted, Nat.zero_add] at augmentations
  rw [unscanned, Nat.zero_add] at columnsScanned
  refine ⟨problem.log, searches, SquareProblem.copied_of_ofCost made, ?_⟩
  rcases ended : problem.solution options.initialization with ⟨_ | row, final⟩
  · obtain ⟨answered, log⟩ := solveIn_of_solved workspace checked made ended
    rw [ended] at replays reported augmentations columnsScanned complete
    obtain ⟨failure, exclusion, remarked, closing⟩ := closingReports_eq
      (problem.answer cost options final) cost options (problem.verified_answer cost options final)
    refine .inl ⟨_, failure, exclusion, answered, ⟨?_, augmentations, columnsScanned⟩, remarked, ?_⟩
    · rw [replays.rows, complete rfl, List.map_map]
      rfl
    · rw [log, reported, closing]
      simp only [List.append_assoc]
  · obtain ⟨refused, log⟩ := solveIn_of_stranded workspace checked made ended
    rw [ended] at replays reported stranded
    obtain ⟨member, below⟩ := stranded row rfl
    refine .inr ⟨row.val, List.mem_map_of_mem member, refused, ?_, by rw [log, reported]⟩
    rw [replays.rows, below, List.filter_map, List.map_map]
    rfl

/-- A filled matrix, one of whose two pairs the limit excludes: one of three rows is searched. -/
theorem log_of_solveIn_tall :
    let cost : CostMatrix Float :=
      ⟨3, 2, #[3, -1, 4, 2, 0, 5], by decide, by decide, rfl, by decide, by decide +kernel⟩
    let options : Options Float := { extendCost := true, costLimit := -0.5, verify := true }
    let run := solveIn .empty cost options
    run.log.map LogEntry.matchedRow? = [none, some 1, none, none] ∧
    ∃ problem answer making searches failure exclusion,
      options.check = .ok () ∧ SquareProblem.ofCost cost options = .ok problem ∧
      problem.Copied cost options making ∧ run.result = .ok answer ∧
      answer.Replayed ((problem.openRows options.initialization).map Fin.val) searches ∧
      answer.Remarked cost options failure exclusion ∧
      run.log = making ++ searches ++ failure ++ exclusion ++ [answer.summary cost] := by
  intro cost options run
  have seen : run.log.map LogEntry.matchedRow? = [none, some 1, none, none] := by decide +kernel
  have answered : (solve cost options).isOk = true := by decide +kernel
  refine ⟨seen, ?_⟩
  cases success : solve cost options with
  | error refusal =>
    rw [success] at answered
    contradiction
  | ok answer =>
    obtain ⟨checked, problem, made, _⟩ := solve_eq_ok_iff.mp success
    obtain ⟨_, _, making, searches, copied, ⟨answer', failure, exclusion, same, parts⟩ |
      ⟨row, _, refused, _⟩⟩ := log_of_solveIn .empty checked made
    · exact ⟨problem, answer', making, searches, failure, exclusion, checked, made, copied, same,
        parts⟩
    · cases success.symm.trans refused

end LinearAssignment
