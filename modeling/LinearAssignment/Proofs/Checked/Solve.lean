import LinearAssignment.Proofs.Checked.Search
import LinearAssignment.Proofs.SquareSolution
import LinearAssignment.Proofs.Workspace

/-! # A solve without bounds and without fallbacks

Indices of rows and columns lie inside their square by their type; what could go wrong in a solve is
that a loop runs on, or that an entry which holds no index is taken for one. A checked solve gives
no result then. It also gives none where a search settles more columns than one above the matched
rows, or where the walk back takes more steps than there are settled columns. It always gives the
result of the solve, in any arithmetic that can tell infinity from finite costs.
-/

namespace LinearAssignment

open CostNumber (ofNat magnitude total)

variable {κ : Type} [CostNumber κ] {n : Nat}

/-! ## Checked steps -/

namespace Progress

/-- Match one free row, with all checks. -/
noncomputable def augmentChecked (matrix : SquareMatrix κ n) (row : Fin n)
    (progress : Progress κ n) : Option (Bool × Progress κ n) := do
  let ⟨potentials, old, matching⟩ := progress.scratch
  let (search, sink) ←
    Search.exploreFreely matrix potentials matching (old.reset n) row (ofNat 0)
  guard (search.scanned.size ≤ matching.matchedRows + 1)
  match sink with
  | none => return (false, { progress with scratch := ⟨potentials, search, matching⟩ })
  | some sink =>
    let shifted ← potentials.shiftInOrder search matching row sink
    let (flipped, steps) ← matching.flipBack search row sink 0
    guard (steps ≤ search.scanned.size)
    let column ← flipped.colOf.get row
    let tally := progress.tally.countScans search.scanned.size
    return (true,
      { scratch := ⟨shifted, search, flipped⟩
        tally := tally.countAugmentation
        log := progress.log.push
          (.augmented row column search.scanned.size (search.distance.get sink)) })

/-- Match each of some rows that is free, with all checks. -/
noncomputable def augmentAllChecked (matrix : SquareMatrix κ n) :
    List (Fin n) → Progress κ n → Option (Option (Fin n) × Progress κ n)
  | [], progress => some (none, progress)
  | row :: rest, progress =>
    if progress.scratch.matching.isFreeRow row then do
      match ← progress.augmentChecked matrix row with
      | (true, next) => augmentAllChecked matrix rest next
      | (false, next) => return (some row, next)
    else augmentAllChecked matrix rest progress

end Progress

/-- The certificate of a permutation, where every row must have a column. -/
def Certificate.computeChecked (matrix : SquareMatrix κ n) (colOf : Vector (Option (Fin n)) n)
    (potentials : Potentials κ n) : Option (Certificate κ) := do
  let costs ← (List.finRange n).mapM fun row => (colOf.get row).map (matrix.get row)
  let certificate := compute matrix colOf potentials
  return { certificate with
    primalObjective := total costs
    dualityGap := magnitude (total costs - certificate.dualObjective) }

namespace SquareProblem

/-- The assignment that a square solution gives, with a checked certificate. -/
def answerChecked (problem : SquareProblem κ) (cost : CostMatrix κ) (options : Options κ)
    (progress : Progress κ problem.dimension) : Option (Assignment κ) := do
  let scratch := progress.scratch
  let certificate ←
    if options.verify then
      (Certificate.computeChecked problem.matrix scratch.matching.colOf scratch.potentials).map some
    else some none
  return { problem.answer cost options progress with certificate }

/-- Solve a square problem in prepared scratch, with all checks. -/
noncomputable def runChecked (problem : SquareProblem κ) (cost : CostMatrix κ) (options : Options κ)
    (capacity : Nat) (scratch : Scratch κ problem.dimension) : Option (SolveRun κ) := do
  let start := (Progress.begin scratch {}).startAt problem.matrix options.initialization
  let (stranded, progress) ←
    start.augmentAllChecked problem.matrix (List.finRange problem.dimension)
  let kept : Workspace κ := ⟨capacity, problem.dimension, progress.scratch⟩
  let log := problem.log ++ progress.log.toList
  match stranded with
  | some row => return ⟨.error (.stranded row), kept, log⟩
  | none =>
    let assignment ← problem.answerChecked cost options progress
    return ⟨.ok assignment, kept, log ++ closingReports cost options assignment⟩

end SquareProblem

/-- Solve a cost matrix in some scratch memory, with all checks. -/
noncomputable def solveInChecked (workspace : Workspace κ) (cost : CostMatrix κ)
    (options : Options κ) : Option (SolveRun κ) :=
  match options.check with
  | .error problem => some ⟨.error problem, workspace, []⟩
  | .ok () =>
    match SquareProblem.ofCost cost options with
    | .error problem => some ⟨.error problem, workspace, []⟩
    | .ok problem =>
      match workspace.prepare problem.dimension with
      | .error cause => some ⟨.error (.memory cause), workspace, problem.log⟩
      | .ok (capacity, scratch) => problem.runChecked cost options capacity scratch

/-! ## No check fails -/

variable {matrix : SquareMatrix κ n} {progress : Progress κ n} {row sink : Fin n}
  {search : Search κ n} {matching : Matching n} {origin : Fin n}

/-- A path has no more pairs than there are settled columns. -/
theorem Search.Traced.length_path_le (traced : search.Traced matching origin)
    (visited : search.visited.get sink = true) :
    (search.path matching origin sink).length ≤ search.scanned.size := by
  obtain ⟨path, reached, length⟩ := traced.exists_path sink visited
  rwa [Search.path, reached.pathBack_eq length]

namespace Progress

/-- Every check of an augmentation of a free row succeeds. -/
theorem augmentChecked_eq [LawfulCost κ] (consistent : progress.scratch.matching.Consistent)
    (free : progress.scratch.matching.colOf.get row = none) :
    progress.augmentChecked matrix row = some (progress.augment matrix row) := by
  obtain ⟨⟨potentials, old, matching⟩, tally, log⟩ := progress
  have begun : Search.Reachable matrix potentials matching row n (old.reset n) row (ofNat 0) := by
    rw [Search.reset_eq]
    exact .start
  have explored := begun.exploreFreely_eq consistent free
  have size := begun.explore_size_le consistent
  rw [augmentChecked, augment]
  dsimp only
  rw [explored, Search.fromRow]
  rcases outcome : Search.explore matrix potentials matching n (old.reset n) row (ofNat 0) with
    ⟨search, _ | sink⟩
  · rw [outcome] at size
    simp [size]
  · rw [outcome] at size
    obtain ⟨traced, visited, freeSink, matched⟩ := Search.fromRow_found consistent outcome
    have grows := Matching.grows_assignAll_path consistent free outcome
    have shifted := potentials.shiftInOrder_eq traced consistent free matched
    have flipped := (traced.pathTo_path visited).flipBack_eq (fun _ _ => rfl) 0
    have length := traced.length_path_le visited
    obtain ⟨column, column_eq⟩ : ∃ column, (matching.assignAll
        (search.path matching row sink)).colOf.get row = some column :=
      Option.ne_none_iff_exists'.mp fun none => ((grows.colOf_eq_none_iff row).mp none).2 rfl
    simp [size, shifted, flipped, length, column_eq]

/-- Every check of all augmentations succeeds. -/
theorem augmentAllChecked_eq [LawfulCost κ] {rows : List (Fin n)}
    (consistent : progress.scratch.matching.Consistent) :
    progress.augmentAllChecked matrix rows = some (progress.augmentAll matrix rows) := by
  induction rows generalizing progress with
  | nil => rfl
  | cons head rest ih =>
    rw [augmentAllChecked, augmentAll]
    split_ifs with isFree
    · have free := Matching.isFreeRow_iff.mp isFree
      rw [augmentChecked_eq consistent free]
      rcases outcome : progress.augment matrix head with ⟨_ | _, next⟩
      · rfl
      · obtain ⟨col, grows⟩ := grows_of_augment consistent free outcome
        exact ih grows.consistent
    · exact ih consistent

end Progress

private theorem mapM_map_some {α β : Type} {items : List α} {entry : α → Option β} {image : α → β}
    (known : ∀ item ∈ items, entry item = some (image item)) :
    items.mapM entry = some (items.map image) := by
  induction items with
  | nil => rfl
  | cons head rest ih =>
    rw [List.mapM_cons, known head (List.mem_cons_self ..),
      ih fun item member => known item (List.mem_cons_of_mem _ member)]
    rfl

/-- The certificate of a permutation can be checked. -/
theorem Certificate.computeChecked_eq (permutation : Equiv.Perm (Fin n))
    (potentials : Potentials κ n) :
    computeChecked matrix (Matching.ofPerm permutation).colOf potentials =
      some (compute matrix (Matching.ofPerm permutation).colOf potentials) := by
  have costs : ((List.finRange n).mapM fun row =>
      ((Matching.ofPerm permutation).colOf.get row).map (matrix.get row)) =
        some (matchedCosts matrix (Matching.ofPerm permutation).colOf) := by
    rw [mapM_map_some fun row _ => by rw [Matching.colOf_ofPerm, Option.map_some], matchedCosts,
      ← List.filterMap_eq_map]
    refine congrArg some (List.filterMap_congr fun row _ => ?_)
    rw [Matching.colOf_ofPerm]
    rfl
  rw [computeChecked, costs]
  rfl

namespace SquareProblem

variable {problem : SquareProblem κ} {cost : CostMatrix κ} {options : Options κ}

/-- The answer that a permutation gives can be checked. -/
theorem answerChecked_eq {progress : Progress κ problem.dimension}
    {permutation : Equiv.Perm (Fin problem.dimension)}
    (matched : progress.scratch.matching = .ofPerm permutation) :
    problem.answerChecked cost options progress = some (problem.answer cost options progress) := by
  rw [answerChecked, answer, matched]
  dsimp only
  rw [Certificate.computeChecked_eq]
  split_ifs with verify
  · rfl
  · rfl

/-- The run of a square problem on cleared scratch can be checked. -/
theorem runChecked_eq [LawfulCost κ] {m : Nat} (capacity : Nat) (scratch : Scratch κ m) :
    problem.runChecked cost options capacity (scratch.cleared problem.dimension) =
      some (problem.run cost options capacity (scratch.cleared problem.dimension)) := by
  have begun := Progress.Reduced.startAt problem.matrix options.initialization scratch {}
  rw [runChecked, run, Progress.augmentAllChecked_eq begun.consistent]
  rcases outcome : solveSquare problem.matrix options.initialization
    (scratch.cleared problem.dimension) {} with ⟨_ | row, progress⟩
  · obtain ⟨permutation, matched⟩ := exists_perm_of_solveSquare outcome
    rw [solveSquare] at outcome
    simp [outcome, answerChecked_eq matched]
  · rw [solveSquare] at outcome
    simp [outcome]

end SquareProblem

/-- No check of a solve ever fails, whatever the arithmetic rounds, overflows to or leaves
undefined: both loops of every search end by themselves, within one column more than there are
matched rows and within one step for every settled column, and every entry that is taken for an
index holds one. -/
theorem solveInChecked_eq (workspace : Workspace Float) (cost : CostMatrix Float)
    (options : Options Float) :
    solveInChecked workspace cost options = some (solveIn workspace cost options) := by
  rw [solveInChecked, solveIn]
  cases options.check with
  | error refusal => rfl
  | ok _ =>
    cases made : SquareProblem.ofCost cost options with
    | error refusal => rfl
    | ok problem =>
      dsimp only
      rw [workspace.prepare_eq]
      cases reserve workspace.capacity problem.dimension with
      | error cause => rfl
      | ok capacity => exact SquareProblem.runChecked_eq capacity Scratch.nothing

end LinearAssignment
