import LinearAssignment.Proofs.History
import LinearAssignment.Proofs.Solve

/-! # Associated frames

The pairs of an association come from the row side of an assignment, and the open columns from its
column side. As both sides of a sound assignment name the same pairs, nothing is lost and nothing is
counted twice on either side of the frame.
-/

namespace LinearAssignment

/-! ## Indices with and without a partner -/

private theorem pairwise_zipIdx {α : Type} (entries : List α) :
    entries.zipIdx.Pairwise fun first second => first.2 < second.2 := by
  rw [← List.pairwise_map (f := Prod.snd), List.zipIdx_map_snd]
  exact List.pairwise_lt_range'

theorem mem_unmatchedIndices {partners : List (Option Nat)} {index : Nat} :
    index ∈ unmatchedIndices partners ↔ partners[index]? = some none := by
  simp only [unmatchedIndices, List.mem_map, List.mem_filter, Prod.exists]
  constructor
  · rintro ⟨partner, position, ⟨member, isOpen⟩, rfl⟩
    rw [List.mk_mem_zipIdx_iff_getElem?] at member
    rwa [Option.isNone_iff_eq_none.mp isOpen] at member
  · intro isOpen
    exact ⟨none, index, ⟨List.mk_mem_zipIdx_iff_getElem?.mpr isOpen, rfl⟩, rfl⟩

/-- Open indices are listed in ascending order. -/
theorem pairwise_unmatchedIndices (partners : List (Option Nat)) :
    (unmatchedIndices partners).Pairwise (· < ·) :=
  List.pairwise_map.mpr ((pairwise_zipIdx partners).filter _)

/-- Every index of one side is taken or open, and not both. -/
theorem perm_range_of_taken {taken : List Nat} {partners : List (Option Nat)}
    (distinct : taken.Nodup)
    (taken_iff : ∀ index, index ∈ taken ↔ ∃ partner, partners[index]? = some (some partner)) :
    (taken ++ unmatchedIndices partners).Perm (List.range partners.length) := by
  have openOnce : (unmatchedIndices partners).Nodup :=
    (pairwise_unmatchedIndices partners).imp Nat.ne_of_lt
  have once : (taken ++ unmatchedIndices partners).Nodup := by
    apply distinct.append openOnce
    intro index isTaken isOpen
    obtain ⟨partner, paired⟩ := (taken_iff index).mp isTaken
    rw [mem_unmatchedIndices.mp isOpen] at paired
    cases paired
  refine (List.perm_ext_iff_of_nodup once List.nodup_range).mpr ?_
  intro index
  rw [List.mem_append, taken_iff, mem_unmatchedIndices, List.mem_range]
  constructor
  · rintro (⟨partner, entry⟩ | entry)
    · exact (List.getElem?_eq_some_iff.mp entry).1
    · exact (List.getElem?_eq_some_iff.mp entry).1
  · intro inside
    have entry := List.getElem?_eq_getElem inside
    cases partner : partners[index] with
    | none => exact .inr (entry.trans (congrArg some partner))
    | some other => exact .inl ⟨other, entry.trans (congrArg some partner)⟩

/-! ## The pairs of an assignment -/

namespace Assignment

variable {κ : Type} {answer : Assignment κ}

theorem mem_pairs {row col : Nat} :
    (row, col) ∈ answer.pairs ↔ answer.rowToCol[row]? = some (some col) := by
  simp only [pairs, List.mem_filterMap, Prod.exists]
  constructor
  · rintro ⟨partner, position, member, paired⟩
    rw [List.mk_mem_zipIdx_iff_getElem?] at member
    obtain ⟨found, rfl, same⟩ := Option.map_eq_some_iff.mp paired
    cases same
    exact member
  · intro paired
    exact ⟨some col, row, List.mk_mem_zipIdx_iff_getElem?.mpr paired, rfl⟩

/-- Pairs are listed by ascending row. -/
theorem pairwise_pairs (answer : Assignment κ) :
    answer.pairs.Pairwise fun first second => first.1 < second.1 := by
  apply List.Pairwise.filterMap _ _ (pairwise_zipIdx answer.rowToCol)
  intro first second ascend pair paired pair' paired'
  obtain ⟨_, _, rfl⟩ := Option.map_eq_some_iff.mp paired
  obtain ⟨_, _, rfl⟩ := Option.map_eq_some_iff.mp paired'
  exact ascend

variable [CostNumber κ] {cost : CostMatrix κ} {limit : κ}

/-- No column of a sound assignment belongs to two pairs. -/
theorem Sound.nodup_cols (sound : answer.Sound cost limit) :
    (answer.pairs.map Prod.snd).Nodup := by
  apply List.Nodup.map_on
  · rintro ⟨row, col⟩ paired ⟨other, _⟩ paired' rfl
    have owner := (sound.paired_iff row col).mp (mem_pairs.mp paired)
    have owner' := (sound.paired_iff other col).mp (mem_pairs.mp paired')
    cases owner.symm.trans owner'
    rfl
  · exact answer.pairwise_pairs.imp fun ascend same => by
      rw [same] at ascend
      exact Nat.lt_irrefl _ ascend

end Assignment

/-! ## Partitions of a frame -/

/-- An association that accounts for every row and column of a frame exactly once. -/
structure Association.Partitions (association : Association) (rows cols : Nat) : Prop where
  rows_ascend : (association.pairs.map Prod.fst).Pairwise (· < ·)
  cols_distinct : (association.pairs.map Prod.snd).Nodup
  unmatchedRows_ascend : association.unmatchedRows.Pairwise (· < ·)
  unmatchedCols_ascend : association.unmatchedCols.Pairwise (· < ·)
  rows_once :
    (association.pairs.map Prod.fst ++ association.unmatchedRows).Perm (List.range rows)
  cols_once :
    (association.pairs.map Prod.snd ++ association.unmatchedCols).Perm (List.range cols)

namespace Association

/-- A frame in which everything stays open is partitioned. -/
theorem partitions_allOpen (rows cols : Nat) : (allOpen rows cols).Partitions rows cols where
  rows_ascend := .nil
  cols_distinct := .nil
  unmatchedRows_ascend := List.pairwise_lt_range
  unmatchedCols_ascend := List.pairwise_lt_range
  rows_once := .refl _
  cols_once := .refl _

variable {κ : Type} [CostNumber κ] {answer : Assignment κ} {cost : CostMatrix κ} {limit : κ}

/-- A sound assignment partitions its frame. -/
theorem partitions_ofAssignment (sound : answer.Sound cost limit) :
    (ofAssignment answer).Partitions cost.rows cost.cols where
  rows_ascend := List.pairwise_map.mpr answer.pairwise_pairs
  cols_distinct := sound.nodup_cols
  unmatchedRows_ascend := pairwise_unmatchedIndices _
  unmatchedCols_ascend := pairwise_unmatchedIndices _
  rows_once := by
    rw [← sound.rows_length]
    apply perm_range_of_taken
    · exact (List.pairwise_map.mpr answer.pairwise_pairs).imp Nat.ne_of_lt
    · intro row
      simp only [List.mem_map, Prod.exists, exists_and_right, exists_eq_right]
      exact exists_congr fun col => Assignment.mem_pairs
  cols_once := by
    rw [← sound.cols_length]
    apply perm_range_of_taken sound.nodup_cols
    intro col
    simp only [List.mem_map, Prod.exists, exists_eq_right]
    exact exists_congr fun row => Assignment.mem_pairs.trans (sound.paired_iff row col)

end Association

/-! ## Frames on a handle -/

namespace Solver

/-- An association that succeeds on a handle with any history partitions its frame, and none of its
pairs costs more than the threshold. -/
theorem partitions_of_associate (options : Options Float) (history : List Operation)
    {data : Array Float} {rows cols : Nat} {threshold : Float} {association : Association}
    (success : (((ofOptions options).after history).associate data rows cols threshold).result =
      .ok association) :
    association.Partitions rows cols ∧ ∀ row col, (row, col) ∈ association.pairs →
      ∃ value, data[row * cols + col]? = some value ∧ value ≤ threshold := by
  have fits : ((ofOptions options).after history).workspace.Fits :=
    fits_after Workspace.fits_empty history
  by_cases oneSided : rows = 0 ∨ cols = 0
  · rw [associate_of_oneSided oneSided] at success
    dsimp only at success
    split_ifs at success
    cases success
    exact ⟨Association.partitions_allOpen rows cols, fun row col paired => by cases paired⟩
  · cases read : CostMatrix.ofData data rows cols with
    | error refusal =>
      rw [associate_of_unread oneSided read] at success
      contradiction
    | ok cost =>
      rw [result_associate_of_read fits read] at success
      cases solved : LinearAssignment.solve cost _ with
      | error refusal =>
        rw [solved] at success
        contradiction
      | ok answer =>
        rw [solved] at success
        cases success
        obtain ⟨rfl, rfl, rfl⟩ := CostMatrix.ofData_eq_ok read
        have sound := Assignment.Sound.of_solve solved
        refine ⟨Association.partitions_ofAssignment sound, fun row col paired => ?_⟩
        obtain ⟨value, entry, bound⟩ := sound.cost_le row col (Assignment.mem_pairs.mp paired)
        exact ⟨value, CostMatrix.getElem?_data_of_get? entry, bound⟩

/-- Three rows and two columns on a handle that has refused a frame before, and that leaves a row
and a column open together rather than take a pair above the threshold. -/
theorem partitions_of_associate_tall :
    let history : List Operation :=
      [.associate #[1] 0 2 1, .configure { initialization := .zero, limitStrategy := .augmented }]
    let solver := (ofOptions {}).after history
    let data : Array Float := #[0.25, 0.75, 0.875, 0.125, 1, 0.625]
    let association : Association := ⟨[(0, 0), (1, 1)], [2], []⟩
    (solver.associate data 3 2 0.5).result = .ok association ∧ association.Partitions 3 2 ∧
      ∀ row col, (row, col) ∈ association.pairs →
        ∃ value, data[row * 2 + col]? = some value ∧ value ≤ 0.5 := by
  intro history solver data association
  have answered : (solver.associate data 3 2 0.5).result.toOption = some association := by
    decide +kernel
  have success : (solver.associate data 3 2 0.5).result = .ok association := by
    cases outcome : (solver.associate data 3 2 0.5).result with
    | error refusal =>
      rw [outcome] at answered
      contradiction
    | ok other =>
      rw [outcome] at answered
      exact congrArg _ (Option.some.inj answered)
  exact ⟨success, partitions_of_associate {} history success⟩

/-- What an association does on a handle with any history. The options stay as they are, a frame
whose costs make a matrix is answered as a solve of the matrix alone is under these options with
extension on and the limit at the threshold, a frame with an empty side leaves the whole handle
alone, and where start, strategy and verification are the default ones the answer is that of a fresh
handle. -/
theorem associate_after (options : Options Float) (history : List Operation) (data : Array Float)
    (rows cols : Nat) (threshold : Float) :
    let solver := (ofOptions options).after history
    let call := solver.associate data rows cols threshold
    let plain : Options Float := {}
    call.solver.options = solver.options ∧
    (∀ cost, CostMatrix.ofData data rows cols = .ok cost →
      call.result = (LinearAssignment.solve cost
        { solver.options with extendCost := true, costLimit := threshold }).map .ofAssignment) ∧
    (rows = 0 ∨ cols = 0 → call.solver = solver) ∧
    (solver.options.initialization = plain.initialization →
      solver.options.limitStrategy = plain.limitStrategy →
      solver.options.verify = plain.verify →
      call.result = (Association.ofCosts data rows cols threshold).result) := by
  intro solver call plain
  have fits : solver.workspace.Fits := fits_after Workspace.fits_empty history
  refine ⟨?_, fun cost read => ?_, fun oneSided => ?_, fun start strategy verify => ?_⟩
  · exact options_associate solver data rows cols threshold
  · exact result_associate_of_read fits read
  · simp only [call, associate_of_oneSided oneSided]
  · have same : solver.options.gated threshold = plain.gated threshold := by
      simp only [Options.gated, start, strategy, verify]
    by_cases oneSided : rows = 0 ∨ cols = 0
    · simp only [call, Association.ofCosts, associate_of_oneSided oneSided]
    · cases read : CostMatrix.ofData data rows cols with
      | error refusal =>
        simp only [call, Association.ofCosts, associate_of_unread oneSided read]
      | ok cost =>
        have fresh : ({} : Solver Float).workspace.Fits := Workspace.fits_empty
        have answer : call.result =
            (LinearAssignment.solve cost (solver.options.gated threshold)).map .ofAssignment :=
          result_associate_of_read fits read
        rw [same] at answer
        exact answer.trans (result_associate_of_read fresh read).symm

/-- A handle whose options have been set to an undefined limit keeps it, although a frame is solved
on it as on a fresh handle. -/
theorem associate_after_undefined_limit :
    let undefined : Options Float := { costLimit := 0 / 0 }
    let solver := (ofOptions {}).after [.configure undefined]
    let call := solver.associate #[0.125, 0.75, 0.875, 0.25, 1, 0.625] 2 3 0.5
    let fresh := Association.ofCosts (#[0.125, 0.75, 0.875, 0.25, 1, 0.625] : Array Float) 2 3 0.5
    call.solver.options = undefined ∧ call.result = fresh.result ∧
      fresh.result.toOption.map (·.pairs) = some [(0, 0)] := by
  intro undefined solver call fresh
  obtain ⟨kept, _, _, alike⟩ := associate_after {} [.configure undefined]
    #[0.125, 0.75, 0.875, 0.25, 1, 0.625] 2 3 0.5
  have pairs : fresh.result.toOption.map (·.pairs) = some [(0, 0)] := by decide +kernel
  exact ⟨kept, alike rfl rfl rfl, pairs⟩

end Solver

end LinearAssignment
