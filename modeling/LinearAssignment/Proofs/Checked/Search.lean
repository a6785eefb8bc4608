import LinearAssignment.Proofs.Augmentation
import LinearAssignment.Proofs.Potentials
import Mathlib.Data.PFun

/-! # A search without bounds

The search of the library is bounded by the number of columns, and so is the walk back along its
predecessors. Here both loops are written without a bound, and where an entry is taken as an index
there is no result unless it holds one. They have the same results all the same: from a free row
some column is always left to settle, and every walk ends at that row.
-/

namespace LinearAssignment

open CostNumber (isFinite ofNat)

section

variable {α β : Type} {step : α → Option (β ⊕ α)} {state next : α} {result : β}

open Classical in
/-- Take steps until one of them gives a result, however many that takes. There is none if a step
fails, and none if the steps go on for ever. -/
noncomputable def loop (step : α → Option (β ⊕ α)) (state : α) : Option β :=
  (PFun.fix (fun state => Part.ofOption (step state)) state).toOption

theorem loop_of_done (done : step state = some (.inl result)) :
    loop step state = some result := by
  classical
  refine Part.mem_toOption.mpr (PFun.fix_stop ?_)
  rw [done]
  exact Part.mem_some _

theorem loop_of_goesOn (goesOn : step state = some (.inr next)) :
    loop step state = loop step next := by
  classical
  have member : Sum.inr next ∈ Part.ofOption (step state) := by
    rw [goesOn]
    exact Part.mem_some _
  exact congrArg (fun part : Part β => part.toOption) (PFun.fix_fwd_eq member)

end

variable {κ : Type} [CostNumber κ] {n : Nat}

/-! ## The loops of a search -/

namespace Search

/-- Settle one more column. The search ends if it is free, or if none is left at a finite
distance. -/
def exploreStep (matrix : SquareMatrix κ n) (potentials : Potentials κ n) (matching : Matching n) :
    Search κ n × Fin n × κ → Option ((Search κ n × Option (Fin n)) ⊕ (Search κ n × Fin n × κ))
  | (search, row, reached) =>
    let search := search.relax matrix potentials row reached
    match search.nearest? with
    | none => some (.inl (search, none))
    | some col =>
      if isFinite (search.distance.get col) then
        let search := search.settle col
        match matching.rowOf.get col with
        | none => some (.inl (search, some col))
        | some owner => some (.inr (search, owner, search.distance.get col))
      else some (.inl (search, none))

/-- Settle columns until one is free or none is left at a finite distance, however long that
takes. -/
noncomputable def exploreFreely (matrix : SquareMatrix κ n) (potentials : Potentials κ n)
    (matching : Matching n) (search : Search κ n) (row : Fin n) (reached : κ) :
    Option (Search κ n × Option (Fin n)) :=
  loop (exploreStep matrix potentials matching) (search, row, reached)

end Search

namespace Matching

/-- Exchange the pairs at one column. The walk ends at the row where the search began, and goes on
at the column that any other row has had. -/
def flipStep (search : Search κ n) (origin : Fin n) :
    Matching n × Fin n × Nat → Option ((Matching n × Nat) ⊕ (Matching n × Fin n × Nat))
  | (matching, col, steps) => do
    let row ← search.predecessor.get col
    let flipped := matching.assign row col
    if row = origin then return .inl (flipped, steps + 1)
    let previous ← matching.colOf.get row
    return .inr (flipped, previous, steps + 1)

/-- Go back from a column along its predecessors and exchange the pairs on the way, until the row
where the search began has its column. The steps are counted from some number on. -/
noncomputable def flipBack (search : Search κ n) (origin : Fin n) (matching : Matching n)
    (col : Fin n) (steps : Nat) : Option (Matching n × Nat) :=
  loop (flipStep search origin) (matching, col, steps)

/-- How many rows have a column. -/
def matchedRows (matching : Matching n) : Nat :=
  (List.finRange n).countP fun row => (matching.colOf.get row).isSome

end Matching

namespace Potentials

/-- Shift the potentials of a settled column and of the row that owns it, unless the path ends
there. -/
def shiftAt (search : Search κ n) (matching : Matching n) (sink : Fin n)
    (potentials : Potentials κ n) (col : Fin n) : Option (Potentials κ n) :=
  if col = sink then some potentials
  else do
    let owner ← matching.rowOf.get col
    let slack := search.slack sink col
    return {
      row := potentials.row.set owner (potentials.row.get owner + slack) owner.isLt
      col := potentials.col.set col (potentials.col.get col - slack) col.isLt }

/-- Raise the row where the search began, then shift column by column in the order in which they
were settled. -/
def shiftInOrder (potentials : Potentials κ n) (search : Search κ n) (matching : Matching n)
    (origin sink : Fin n) : Option (Potentials κ n) :=
  let raised := potentials.row.get origin + search.distance.get sink
  search.scanned.toList.foldlM (shiftAt search matching sink)
    { potentials with row := potentials.row.set origin raised origin.isLt }

end Potentials

/-! ## They end as the bounded ones do -/

variable {matrix : SquareMatrix κ n} {potentials : Potentials κ n} {matching : Matching n}
  {search final : Search κ n} {origin row col sink : Fin n} {reached : κ}

namespace Search

/-- Without a bound a search from a free row ends as it does with one. -/
theorem Reachable.exploreFreely_eq [LawfulCost κ] (consistent : matching.Consistent)
    (free : matching.colOf.get origin = none) {unsettled : Nat}
    (reachable : Reachable matrix potentials matching origin unsettled search row reached) :
    exploreFreely matrix potentials matching search row reached =
      some (explore matrix potentials matching unsettled search row reached) := by
  induction unsettled generalizing search row reached with
  | zero => exact absurd rfl (reachable.exists_unsettled consistent free).1
  | succ unsettled ih =>
    rw [exploreFreely, explore]
    cases nearest : (search.relax matrix potentials row reached).nearest? with
    | none =>
      refine loop_of_done ?_
      simp only [exploreStep, nearest]
    | some col =>
      dsimp only
      split_ifs with finite
      · have round : Settles matrix potentials search row reached col _ := ⟨nearest, finite, rfl⟩
        cases owned : matching.rowOf.get col with
        | none =>
          refine loop_of_done ?_
          simp only [exploreStep, nearest, finite, if_true, owned]
        | some owner =>
          rw [← ih (reachable.round round owned)]
          refine loop_of_goesOn ?_
          simp only [exploreStep, nearest, finite, if_true, owned]
      · refine loop_of_done ?_
        simp only [exploreStep, nearest, finite, Bool.false_eq_true, if_false]

end Search

/-- Different matched columns have different rows, which are matched. -/
theorem Matching.Consistent.length_le_matchedRows (consistent : matching.Consistent)
    {cols : List (Fin n)} (nodup : cols.Nodup)
    (matched : ∀ col ∈ cols, matching.rowOf.get col ≠ none) :
    cols.length ≤ matching.matchedRows := by
  have owners : (cols.filterMap matching.rowOf.get).length = cols.length :=
    List.filterMap_length_eq_length.mpr fun col member =>
      Option.isSome_iff_ne_none.mpr (matched col member)
  have distinct : (cols.filterMap matching.rowOf.get).Nodup := by
    refine nodup.filterMap fun col other row owned owned' => ?_
    rw [Option.mem_def, ← consistent] at owned owned'
    exact Option.some.inj (owned.symm.trans owned')
  rw [← owners, Matching.matchedRows, List.countP_eq_length_filter]
  refine (List.subperm_of_subset distinct fun row member => ?_).length_le
  obtain ⟨col, _, owned⟩ := List.mem_filterMap.mp member
  rw [← consistent] at owned
  simp [owned]

namespace Search

/-- Between two rounds all settled columns are matched. -/
theorem Reachable.size_le_matchedRows [LawfulCost κ] (consistent : matching.Consistent)
    {unsettled : Nat}
    (reachable : Reachable matrix potentials matching origin unsettled search row reached) :
    search.scanned.size ≤ matching.matchedRows := by
  obtain ⟨traced, _, matched, _⟩ := reachable.traced consistent
  rw [← Array.length_toList]
  refine consistent.length_le_matchedRows traced.nodup fun col member => ?_
  exact matched col ((traced.visited_iff col).mpr member)

/-- A search settles one column more than there are matched rows at most. -/
theorem Reachable.explore_size_le [LawfulCost κ] (consistent : matching.Consistent)
    {unsettled : Nat}
    (reachable : Reachable matrix potentials matching origin unsettled search row reached) :
    (explore matrix potentials matching unsettled search row reached).1.scanned.size ≤
      matching.matchedRows + 1 := by
  have before := reachable.size_le_matchedRows consistent
  induction unsettled generalizing search row reached with
  | zero => exact before.trans (Nat.le_succ _)
  | succ unsettled ih =>
    rw [explore]
    cases nearest : (search.relax matrix potentials row reached).nearest? with
    | none =>
      rw [relax_scanned]
      omega
    | some col =>
      dsimp only
      split_ifs with finite
      · have round : Settles matrix potentials search row reached col _ := ⟨nearest, finite, rfl⟩
        cases owned : matching.rowOf.get col with
        | none =>
          dsimp only
          rw [settle_scanned, relax_scanned, Array.size_push]
          omega
        | some owner =>
          have next := reachable.round round owned
          exact ih next (next.size_le_matchedRows consistent)
      · rw [relax_scanned]
        omega

omit [CostNumber κ] in
/-- The walk along a path exchanges its pairs, one in each step. In `current` a part of the path has
been exchanged already, and no row of the rest is concerned. -/
theorem PathTo.flipBack_eq {path : List (Fin n × Fin n)}
    (toCol : PathTo search matching origin col path) {current : Matching n}
    (same : ∀ pair ∈ path, current.colOf.get pair.1 = matching.colOf.get pair.1) (steps : Nat) :
    current.flipBack search origin col steps =
      some (current.assignAll path, steps + path.length) := by
  induction toCol generalizing current steps with
  | direct _ predecessor =>
    refine loop_of_done ?_
    simp [Matching.flipStep, predecessor]
  | @through row col previous path _ predecessor notOrigin owned tail fresh ih =>
    have stillOwned := (same _ (List.mem_cons_self ..)).trans owned
    have untouched : ∀ pair ∈ path,
        (current.assign row col).colOf.get pair.1 = matching.colOf.get pair.1 := by
      intro pair member
      rw [Matching.colOf_assign, if_neg (tail.row_ne notOrigin owned member)]
      exact same pair (List.mem_cons_of_mem _ member)
    have goesOn : Matching.flipStep search origin (current, col, steps) =
        some (.inr (current.assign row col, previous, steps + 1)) := by
      simp [Matching.flipStep, predecessor, notOrigin, stillOwned]
    have walked := ih untouched (steps + 1)
    rw [Matching.flipBack] at walked ⊢
    rw [loop_of_goesOn goesOn, walked, Matching.assignAll_cons, List.length_cons, Nat.add_assoc,
      Nat.add_comm 1]

end Search

namespace Potentials

/-- What the shifts at some of the settled columns have made of the potentials. -/
structure ShiftedAt (potentials : Potentials κ n) (search : Search κ n) (matching : Matching n)
    (origin sink : Fin n) (done : List (Fin n)) (current : Potentials κ n) : Prop where
  row_eq : ∀ row, current.row.get row =
    if row = origin then potentials.row.get row + search.distance.get sink
    else match matching.colOf.get row with
      | some col =>
        if col ∈ done ∧ col ≠ sink then potentials.row.get row + search.slack sink col
        else potentials.row.get row
      | none => potentials.row.get row
  col_eq : ∀ col, current.col.get col =
    if col ∈ done ∧ col ≠ sink then potentials.col.get col - search.slack sink col
    else potentials.col.get col

/-- The shift at one more column succeeds. -/
theorem ShiftedAt.shiftAt {done : List (Fin n)} {current : Potentials κ n}
    (shifted : potentials.ShiftedAt search matching origin sink done current)
    (consistent : matching.Consistent) (free : matching.colOf.get origin = none)
    (fresh : col ∉ done) (owned : col = sink ∨ matching.rowOf.get col ≠ none) :
    ∃ next, current.shiftAt search matching sink col = some next ∧
      potentials.ShiftedAt search matching origin sink (done ++ [col]) next := by
  rcases eq_or_ne col sink with rfl | notSink
  · have same : ∀ other, (other ∈ done ++ [col] ∧ other ≠ col) ↔ (other ∈ done ∧ other ≠ col) := by
      intro other
      rw [List.mem_append, List.mem_singleton]
      tauto
    refine ⟨current, if_pos rfl, ?_, ?_⟩
    · simpa only [same] using shifted.row_eq
    · simpa only [same] using shifted.col_eq
  · obtain ⟨owner, owner_eq⟩ := Option.ne_none_iff_exists'.mp (owned.resolve_left notSink)
    have paired := (consistent owner col).mpr owner_eq
    have same : ∀ other, other ≠ col →
        ((other ∈ done ++ [col] ∧ other ≠ sink) ↔ (other ∈ done ∧ other ≠ sink)) := by
      intro other different
      rw [List.mem_append, List.mem_singleton, or_iff_left different]
    refine ⟨_, by rw [Potentials.shiftAt, if_neg notSink, owner_eq]; rfl, fun row => ?_,
      fun other => ?_⟩
    · refine (get_set ..).trans ?_
      split_ifs with isOwner isOrigin isOrigin
      · rw [← isOwner, isOrigin, free] at paired
        contradiction
      · subst isOwner
        rw [shifted.row_eq, if_neg isOrigin, paired]
        simp [fresh, notSink]
      · rw [shifted.row_eq, if_pos isOrigin]
      · rw [shifted.row_eq, if_neg isOrigin]
        cases owns : matching.colOf.get row with
        | none => rfl
        | some other =>
          have different : other ≠ col := by
            rintro rfl
            exact isOwner (consistent.row_unique owns paired)
          simp only [same other different]
    · refine (get_set ..).trans ?_
      split_ifs with isCol settled settled
      · rw [isCol, shifted.col_eq, if_neg (fun settled => fresh settled.1)]
      · exact absurd ⟨by simp [isCol], isCol ▸ notSink⟩ settled
      · rw [shifted.col_eq, if_pos ((same other isCol).mp settled)]
      · rw [shifted.col_eq, if_neg (fun old => settled ((same other isCol).mpr old))]

omit [CostNumber κ] in
private theorem ext_get {first second : Potentials κ n}
    (row : ∀ row, first.row.get row = second.row.get row)
    (col : ∀ col, first.col.get col = second.col.get col) : first = second := by
  rcases first with ⟨rows, cols⟩
  rcases second with ⟨rows', cols'⟩
  congr 1
  · exact Vector.ext fun index bound => row ⟨index, bound⟩
  · exact Vector.ext fun index bound => col ⟨index, bound⟩

/-- The potentials after the row where the search began has been raised and some of the settled
columns have been shifted. -/
theorem exists_shiftedAt (potentials : Potentials κ n) (consistent : matching.Consistent)
    (free : matching.colOf.get origin = none) {cols : List (Fin n)} (nodup : cols.Nodup)
    (owned : ∀ col ∈ cols, col = sink ∨ matching.rowOf.get col ≠ none) :
    ∃ current, cols.foldlM (shiftAt search matching sink)
        { potentials with
          row := potentials.row.set origin
            (potentials.row.get origin + search.distance.get sink) origin.isLt } = some current ∧
      potentials.ShiftedAt search matching origin sink cols current := by
  induction cols using List.reverseRecOn with
  | nil =>
    refine ⟨_, rfl, fun row => ?_, fun col => by simp⟩
    refine (get_set ..).trans ?_
    split_ifs with isOrigin
    · rw [isOrigin]
    · cases matching.colOf.get row <;> simp
  | append_singleton done col ih =>
    rw [List.nodup_append] at nodup
    obtain ⟨current, done_eq, shifted⟩ := ih nodup.1 fun other member =>
      owned other (List.mem_append_left _ member)
    have fresh : col ∉ done := fun member => nodup.2.2 col member col (by simp) rfl
    obtain ⟨next, next_eq, shifted'⟩ := shifted.shiftAt consistent free fresh
      (owned col (by simp))
    refine ⟨next, ?_, shifted'⟩
    rw [List.foldlM_append, done_eq]
    change List.foldlM (shiftAt search matching sink) current [col] = some next
    rw [List.foldlM_cons, next_eq]
    rfl

/-- Column by column, the potentials become what they are after a search. -/
theorem shiftInOrder_eq (potentials : Potentials κ n) (traced : search.Traced matching origin)
    (consistent : matching.Consistent) (free : matching.colOf.get origin = none)
    (matched : ∀ col, search.visited.get col = true → col = sink ∨ matching.rowOf.get col ≠ none) :
    potentials.shiftInOrder search matching origin sink =
      some (potentials.shifted search matching origin sink) := by
  obtain ⟨current, current_eq, shifted⟩ := potentials.exists_shiftedAt consistent free
    traced.nodup fun col member => matched col ((traced.visited_iff col).mpr member)
  have shifts (col : Fin n) : search.shifts sink col = true ↔
      col ∈ search.scanned.toList ∧ col ≠ sink := by
    rw [Search.shifts, Bool.and_eq_true, decide_eq_true_iff, traced.visited_iff]
  rw [shiftInOrder, current_eq]
  refine congrArg some (ext_get (fun row => ?_) fun col => ?_)
  · rw [shifted.row_eq, shifted_row]
    cases matching.colOf.get row with
    | none => rfl
    | some col => simp only [shifts]
  · rw [shifted.col_eq, shifted_col]
    simp only [shifts]

end Potentials

end LinearAssignment
