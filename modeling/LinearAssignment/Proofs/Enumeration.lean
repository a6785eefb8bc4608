import LinearAssignment.Enumeration
import LinearAssignment.Proofs.Cost.Binary64
import LinearAssignment.Proofs.SquareProblem

/-! # The enumeration is exhaustive

The search takes and releases columns in one shared state. It leaves that state as it found it, so
what it does amounts to a walk along the list of all sequences of free columns, in lexicographic
order, that keeps the first of the smallest totals. The laws of rounded sums matter only in that
the totals are numbers: none of them is undefined, because no two infinities are added.
-/

namespace LinearAssignment

open CostNumber (infinity isFinite isNaN ofNat)

namespace Enumeration

variable {κ : Type} [CostNumber κ] {cols : Nat}

/-! ## Sequences of free columns -/

/-- All sequences of some number of columns that are not taken, in ascending order. -/
def sequences (used : Vector Bool cols) : Nat → List (List (Fin cols))
  | 0 => [[]]
  | count + 1 =>
    ((List.finRange cols).filter (!used.get ·)).flatMap fun col : Fin cols =>
      (sequences (used.set col true col.isLt) count).map (col :: ·)

theorem mem_sequences {used : Vector Bool cols} {count : Nat} {columns : List (Fin cols)} :
    columns ∈ sequences used count ↔
      columns.length = count ∧ columns.Nodup ∧ ∀ col ∈ columns, used.get col = false := by
  induction count generalizing used columns with
  | zero =>
    rw [sequences, List.mem_singleton, List.length_eq_zero_iff]
    exact ⟨fun empty => by simp [empty], And.left⟩
  | succ count ih =>
    simp only [sequences, List.mem_flatMap, List.mem_filter, List.mem_finRange, true_and,
      Bool.not_eq_true', List.mem_map, ih, get_set]
    cases columns with
    | nil => simp
    | cons first rest =>
      simp only [List.cons.injEq, List.length_cons, Nat.add_right_cancel_iff, List.nodup_cons,
        List.forall_mem_cons]
      constructor
      · rintro ⟨col, free, _, ⟨length, distinct, others⟩, rfl, rfl⟩
        refine ⟨length, ⟨fun member => ?_, distinct⟩, free, fun other member => ?_⟩
        · have taken := others col member
          rw [if_pos rfl] at taken
          contradiction
        · have open_ := others other member
          split_ifs at open_ with same
          exact open_
      · rintro ⟨length, ⟨fresh, distinct⟩, free, others⟩
        refine ⟨first, free, rest, ⟨length, distinct, fun other member => ?_⟩, rfl, rfl⟩
        rw [if_neg]
        · exact others other member
        · rintro rfl
          exact fresh member

/-- The sequences are listed in lexicographic order. -/
theorem pairwise_sequences (used : Vector Bool cols) (count : Nat) :
    (sequences used count).Pairwise (· < ·) := by
  induction count generalizing used with
  | zero => exact List.pairwise_singleton ..
  | succ count ih =>
    rw [sequences, List.pairwise_flatMap]
    constructor
    · intro col _
      rw [List.pairwise_map]
      exact (ih _).imp fun below => List.cons_lt_cons_iff.mpr (.inr ⟨rfl, below⟩)
    · refine ((List.pairwise_lt_finRange cols).filter _).imp fun below => ?_
      intro first member second member'
      obtain ⟨_, _, rfl⟩ := List.mem_map.mp member
      obtain ⟨_, _, rfl⟩ := List.mem_map.mp member'
      exact List.cons_lt_cons_iff.mpr (.inl below)

/-! ## The walk along all sequences -/

/-- Add the costs of some rows in their columns to a total. -/
def extend (cost : CostMatrix κ) (rows : List (Fin cost.rows)) (total : κ)
    (columns : List (Fin cost.cols)) : κ :=
  (rows.zip columns).foldl (fun total pair => total + cost.get pair.1 pair.2) total

/-- Offer the total with some more columns behind the current ones. -/
def consider (cost : CostMatrix κ) (rows : List (Fin cost.rows)) (total : κ)
    (state : Enumeration κ cost.cols) (columns : List (Fin cost.cols)) :
    Enumeration κ cost.cols :=
  if extend cost rows total columns < state.bestCost then
    { state with
      bestCost := extend cost rows total columns
      best := state.current.reverse ++ columns }
  else state

section

variable {cost : CostMatrix κ} {rows : List (Fin cost.rows)} {total : κ}
  {state : Enumeration κ cost.cols}

@[simp] theorem used_consider (columns : List (Fin cost.cols)) :
    (consider cost rows total state columns).used = state.used := by
  rw [consider]
  split_ifs <;> rfl

@[simp] theorem current_consider (columns : List (Fin cost.cols)) :
    (consider cost rows total state columns).current = state.current := by
  rw [consider]
  split_ifs <;> rfl

/-- Neither the taken columns nor the current ones change along the walk. -/
theorem used_current_foldl (walk : List (List (Fin cost.cols))) :
    (walk.foldl (consider cost rows total) state).used = state.used ∧
      (walk.foldl (consider cost rows total) state).current = state.current := by
  induction walk generalizing state with
  | nil => exact ⟨rfl, rfl⟩
  | cons columns rest ih => simpa using @ih (state.consider cost rows total columns)

/-- Releasing a column undoes taking it. -/
theorem release_take {col : Fin cost.cols} (free : state.used.get col = false) :
    (state.take col).release col = state := by
  have used : (state.used.set col true col.isLt).set col false col.isLt = state.used := by
    ext index inside
    change ((state.used.set col true col.isLt).set col false col.isLt).get ⟨index, inside⟩ =
      state.used.get ⟨index, inside⟩
    rw [get_set, get_set]
    split_ifs with same
    · rw [same, free]
    · rfl
  rw [take, release, used, List.tail_cons]

/-- Offering a total before a column is taken or after makes no difference. -/
theorem consider_take {row : Fin cost.rows} {col : Fin cost.cols}
    (columns : List (Fin cost.cols)) :
    (state.take col).consider cost rows (total + cost.get row col) columns =
      (state.consider cost (row :: rows) total (col :: columns)).take col := by
  have same : extend cost (row :: rows) total (col :: columns) =
      extend cost rows (total + cost.get row col) columns := rfl
  rw [consider, consider, same]
  change (if _ < state.bestCost then _ else _) = _
  split_ifs
  · simp [take]
  · rfl

/-- Between taking and releasing a column the walk is that of the sequences behind it. -/
theorem release_foldl_take {row : Fin cost.rows} {col : Fin cost.cols}
    (free : state.used.get col = false) (walk : List (List (Fin cost.cols))) :
    (walk.foldl (consider cost rows (total + cost.get row col)) (state.take col)).release col =
      (walk.map (col :: ·)).foldl (consider cost (row :: rows) total) state := by
  induction walk generalizing state with
  | nil => exact release_take free
  | cons columns rest ih =>
    rw [List.foldl_cons, List.map_cons, List.foldl_cons, consider_take]
    exact ih (by rw [used_consider]; exact free)

/-- The sequences of free columns that begin with a given one. -/
def sequencesFrom (used : Vector Bool cols) (count : Nat) (col : Fin cols) :
    List (List (Fin cols)) :=
  (sequences (used.set col true col.isLt) count).map (col :: ·)

/-- The walk that begins with one column, if it is free. -/
def walkFrom (cost : CostMatrix κ) (row : Fin cost.rows) (rest : List (Fin cost.rows)) (total : κ)
    (used : Vector Bool cost.cols) (state : Enumeration κ cost.cols) (col : Fin cost.cols) :
    Enumeration κ cost.cols :=
  if !used.get col then
    (sequencesFrom used rest.length col).foldl (consider cost (row :: rest) total) state
  else state

theorem used_walkFrom (row : Fin cost.rows) (used : Vector Bool cost.cols) (col : Fin cost.cols) :
    (walkFrom cost row rows total used state col).used = state.used := by
  rw [walkFrom]
  split_ifs
  · exact (used_current_foldl _).1
  · rfl

/-- The search is a walk along all sequences of free columns. -/
theorem descend_eq (cost : CostMatrix κ) (rows : List (Fin cost.rows)) (total : κ)
    (state : Enumeration κ cost.cols) :
    descend cost rows total state =
      (sequences state.used rows.length).foldl (consider cost rows total) state := by
  induction rows generalizing total state with
  | nil =>
    rw [descend, offer, List.length_nil, sequences, List.foldl_cons, List.foldl_nil, consider,
      List.append_nil]
    rfl
  | cons row rest ih =>
    have step (current : Enumeration κ cost.cols) (col : Fin cost.cols) :
        (if current.used.get col then current
          else (descend cost rest (total + cost.get row col) (current.take col)).release col) =
          walkFrom cost row rest total current.used current col := by
      rw [walkFrom]
      cases free : current.used.get col with
      | true => rfl
      | false =>
        rw [ih]
        exact release_foldl_take free _
    -- Every column leaves the free ones as they were, so they can be read off the first state.
    have loop (columns : List (Fin cost.cols)) (current : Enumeration κ cost.cols)
        (same : current.used = state.used) :
        columns.foldl (fun current col => walkFrom cost row rest total current.used current col)
          current = columns.foldl (walkFrom cost row rest total state.used) current := by
      induction columns generalizing current with
      | nil => rfl
      | cons col others ih' =>
        rw [List.foldl_cons, List.foldl_cons, same]
        exact ih' _ ((used_walkFrom row state.used col).trans same)
    rw [descend, List.length_cons, sequences, List.foldl_flatMap, List.foldl_filter]
    simp only [step]
    exact loop _ state rfl

/-- A search leaves the taken columns and the current ones as they were. -/
theorem used_current_descend (cost : CostMatrix κ) (rows : List (Fin cost.rows)) (total : κ)
    (state : Enumeration κ cost.cols) :
    (descend cost rows total state).used = state.used ∧
      (descend cost rows total state).current = state.current := by
  rw [descend_eq]
  exact used_current_foldl _

end

/-! ## The first of the smallest totals -/

/-- What a walk along some sequences has found in the end. Either no total was below infinity, or
the first sequence with the smallest total splits the walk in two. -/
inductive Found (weigh : List (Fin cols) → Float) (walk : List (List (Fin cols))) :
    Float → List (Fin cols) → Prop where
  | nothing (infinite : ∀ columns ∈ walk, ¬ weigh columns < infinity) :
    Found weigh walk infinity []
  | first (columns : List (Fin cols)) (before after : List (List (Fin cols)))
    (split : walk = before ++ columns :: after) (finite : weigh columns < infinity)
    (dearer : ∀ other ∈ before, weigh columns < weigh other)
    (minimal : ∀ other ∈ after, ¬ weigh other < weigh columns) :
    Found weigh walk (weigh columns) columns

section

variable {weigh : List (Fin cols) → Float} {walk : List (List (Fin cols))} {best : Float}
  {chosen last : List (Fin cols)}

/-- One more sequence is only kept if it is below everything before it. -/
theorem Found.snoc (found : Found weigh walk best chosen)
    (number : ∀ columns ∈ walk ++ [last], isNaN (weigh columns) = false) :
    Found weigh (walk ++ [last]) (if weigh last < best then weigh last else best)
      (if weigh last < best then last else chosen) := by
  have number' : isNaN (weigh last) = false := number last (by simp)
  have earlier : ∀ columns ∈ walk, isNaN (weigh columns) = false := fun columns member =>
    number columns (List.mem_append_left _ member)
  cases found with
  | nothing infinite =>
    split_ifs with below
    · refine .first last walk [] rfl below (fun other member => ?_) (by simp)
      exact Binary64.lt_of_lt_of_not_lt number' Binary64.isNaN_infinity (earlier other member)
        below (infinite other member)
    · refine .nothing fun columns member => ?_
      rcases List.mem_append.mp member with inside | final
      · exact infinite columns inside
      · rwa [List.mem_singleton.mp final]
  | first columns before after split finite dearer minimal =>
    subst split
    have number'' : isNaN (weigh chosen) = false := earlier chosen (by simp)
    split_ifs with below
    · refine .first last (before ++ chosen :: after) [] rfl
        (Binary64.lt_trans number' number'' Binary64.isNaN_infinity below finite)
        (fun other member => ?_) (by simp)
      rcases List.mem_append.mp member with inside | inside
      · exact Binary64.lt_trans number' number'' (earlier other (by simp [inside])) below
          (dearer other inside)
      · rcases List.mem_cons.mp inside with rfl | inside
        · exact below
        · exact Binary64.lt_of_lt_of_not_lt number' number'' (earlier other (by simp [inside]))
            below (minimal other inside)
    · refine .first chosen before (after ++ [last]) (by simp) finite dearer fun other member => ?_
      rcases List.mem_append.mp member with inside | final
      · exact minimal other inside
      · rwa [List.mem_singleton.mp final]

end

section

variable (cost : CostMatrix Float) {rows : List (Fin cost.rows)}

/-- No two infinities are added, so that every total is a number. -/
theorem isNaN_extend (columns : List (Fin cost.cols)) {total : Float}
    (number : isNaN total = false) : isNaN (extend cost rows total columns) = false := by
  rw [extend]
  generalize rows.zip columns = pairs
  induction pairs generalizing total with
  | nil => exact number
  | cons pair rest ih => exact ih (Binary64.isNaN_add number (cost.isFinite_get pair.1 pair.2))

/-- The walk finds the first of the smallest totals. -/
theorem found_walk {total : Float} (number : isNaN total = false)
    (walk : List (List (Fin cost.cols))) :
    Found (extend cost rows total) walk
      (walk.foldl (consider cost rows total) start).bestCost
      (walk.foldl (consider cost rows total) start).best := by
  induction walk using List.reverseRecOn with
  | nil => exact .nothing (by simp)
  | append_singleton walk last ih =>
    have numbers : ∀ columns ∈ walk ++ [last],
        isNaN (extend cost rows total columns) = false := fun columns _ =>
      isNaN_extend cost columns number
    have found := ih.snoc numbers
    have nothing : (walk.foldl (consider cost rows total) start).current = [] :=
      (used_current_foldl walk).2
    rw [List.foldl_append, List.foldl_cons, List.foldl_nil, consider, nothing]
    split_ifs at found ⊢ <;> exact found

end

end Enumeration

/-! ## The smallest total over all injective maps -/

namespace CostMatrix

/-- The sum of the costs of all rows in their columns, added in the order of the rows. -/
def totalOf {κ : Type} [CostNumber κ] (cost : CostMatrix κ)
    (columns : Fin cost.rows → Fin cost.cols) :
    κ :=
  CostNumber.total ((List.finRange cost.rows).map fun row => cost.get row (columns row))

/-- Columns of their own for all rows with the smallest total, and the first such columns in
lexicographic order. -/
structure FirstCheapest (cost : CostMatrix Float) (columns : Fin cost.rows → Fin cost.cols) :
    Prop where
  injective : Function.Injective columns
  minimal (other : Fin cost.rows → Fin cost.cols) : Function.Injective other →
    cost.totalOf columns ≤ cost.totalOf other
  first (other : Fin cost.rows → Fin cost.cols) : Function.Injective other → other ≠ columns →
    ¬ cost.totalOf columns < cost.totalOf other → List.ofFn columns < List.ofFn other

end CostMatrix

open Enumeration

variable {cost : CostMatrix Float} {columns : Fin cost.rows → Fin cost.cols}

/-- The total of a sequence of columns is that of the map it lists. -/
theorem extend_ofFn (columns : Fin cost.rows → Fin cost.cols) :
    extend cost (List.finRange cost.rows) (ofNat 0) (List.ofFn columns) = cost.totalOf columns := by
  rw [extend, List.ofFn_eq_map, ← List.map_prod_left_eq_zip, List.foldl_map, CostMatrix.totalOf,
    CostNumber.total, List.foldl_map]

theorem isNaN_totalOf (columns : Fin cost.rows → Fin cost.cols) :
    isNaN (cost.totalOf columns) = false := by
  rw [← extend_ofFn]
  exact isNaN_extend cost _ (LawfulCost.isNaN_of_isFinite Binary64.isFinite_zero)

/-- The sequences of all columns list the injective maps. -/
theorem ofFn_mem_sequences :
    List.ofFn columns ∈ sequences (Vector.replicate cost.cols false) cost.rows ↔
      Function.Injective columns := by
  rw [mem_sequences, List.nodup_ofFn]
  constructor
  · exact fun member => member.2.1
  · exact fun injective =>
      ⟨List.length_ofFn, injective, fun col _ => Vector.getElem_replicate col.isLt⟩

theorem exists_ofFn_of_mem_sequences {used : Vector Bool cost.cols} {list : List (Fin cost.cols)}
    (member : list ∈ sequences used cost.rows) :
    ∃ columns : Fin cost.rows → Fin cost.cols, Function.Injective columns ∧
      list = List.ofFn columns := by
  obtain ⟨length, distinct, -⟩ := mem_sequences.mp member
  obtain ⟨columns, rfl⟩ : ∃ columns : Fin cost.rows → Fin cost.cols, list = List.ofFn columns := by
    rw [← length]
    exact ⟨list.get, (List.ofFn_get list).symm⟩
  exact ⟨columns, List.nodup_ofFn.mp distinct, rfl⟩

/-- A sequence that splits all others in dearer ones before it and ones that are not cheaper after
it is the first of the cheapest. -/
theorem firstCheapest_of_split (injective : Function.Injective columns)
    {before after : List (List (Fin cost.cols))}
    (split : sequences (Vector.replicate cost.cols false) cost.rows =
      before ++ List.ofFn columns :: after)
    (dearer : ∀ list ∈ before, cost.totalOf columns <
      extend cost (List.finRange cost.rows) (ofNat 0) list)
    (minimal : ∀ list ∈ after, ¬ extend cost (List.finRange cost.rows) (ofNat 0) list <
      cost.totalOf columns) :
    cost.FirstCheapest columns := by
  have number := isNaN_totalOf columns
  have ordered := pairwise_sequences (Vector.replicate cost.cols false) cost.rows
  rw [split, List.pairwise_append, List.pairwise_cons] at ordered
  -- Every other map is dearer, or it is not cheaper and stands behind.
  have other_cases (other : Fin cost.rows → Fin cost.cols) (injective' : Function.Injective other)
      (different : other ≠ columns) : cost.totalOf columns < cost.totalOf other ∨
        ¬ cost.totalOf other < cost.totalOf columns ∧ List.ofFn columns < List.ofFn other := by
    have member := ofFn_mem_sequences.mpr injective'
    rw [split, List.mem_append, List.mem_cons] at member
    rw [← extend_ofFn other]
    rcases member with inside | same | inside
    · exact .inl (dearer _ inside)
    · exact (different (List.ofFn_injective same)).elim
    · exact .inr ⟨minimal _ inside, ordered.2.1.1 _ inside⟩
  refine ⟨injective, fun other injective' => ?_, fun other injective' different notDearer => ?_⟩
  · refine LawfulCost.le_of_not_lt (isNaN_totalOf other) number ?_
    rcases eq_or_ne other columns with rfl | different
    · exact fun below => Binary64.lt_asymm number number below below
    · rcases other_cases other injective' different with above | ⟨notBelow, _⟩
      · exact Binary64.lt_asymm number (isNaN_totalOf other) above
      · exact notBelow
  · exact ((other_cases other injective' different).resolve_left notDearer).2

theorem enumerateMinimum_eq (wide : cost.rows ≤ cost.cols) (small : cost.cols ≤ maxEnumeratedCols) :
    let walk := (sequences (Vector.replicate cost.cols false) cost.rows).foldl
      (consider cost (List.finRange cost.rows) (ofNat 0)) start
    enumerateMinimum cost = .ok (walk.bestCost, walk.best.map Fin.val) := by
  rw [enumerateMinimum, if_neg (by omega), if_neg (by omega), descend_eq, List.length_finRange]
  rfl

/-- What is found among all injective maps. -/
theorem enumerateMinimum_cases (wide : cost.rows ≤ cost.cols)
    (small : cost.cols ≤ maxEnumeratedCols) :
    enumerateMinimum cost = .ok (infinity, []) ∧
        (∀ columns, Function.Injective columns → cost.totalOf columns = infinity) ∨
      ∃ columns, cost.FirstCheapest columns ∧ cost.totalOf columns < infinity ∧
        enumerateMinimum cost =
          .ok (cost.totalOf columns, (List.ofFn columns).map Fin.val) := by
  obtain ⟨best, chosen, found, result⟩ : ∃ best chosen,
      Found (extend cost (List.finRange cost.rows) (ofNat 0))
        (sequences (Vector.replicate cost.cols false) cost.rows) best chosen ∧
      enumerateMinimum cost = .ok (best, chosen.map Fin.val) :=
    ⟨_, _, found_walk cost (LawfulCost.isNaN_of_isFinite Binary64.isFinite_zero) _,
      enumerateMinimum_eq wide small⟩
  rw [result]
  cases found with
  | nothing infinite =>
    refine .inl ⟨rfl, fun columns injective => ?_⟩
    have notBelow := infinite _ (ofFn_mem_sequences.mpr injective)
    rw [extend_ofFn] at notBelow
    exact Binary64.eq_infinity (isNaN_totalOf columns) notBelow
  | first list before after split finite dearer minimal =>
    have member : chosen ∈ sequences (Vector.replicate cost.cols false) cost.rows := by
      rw [split]
      simp
    obtain ⟨columns, injective, rfl⟩ := exists_ofFn_of_mem_sequences member
    rw [extend_ofFn] at finite dearer minimal ⊢
    exact .inr ⟨columns, firstCheapest_of_split injective split dearer minimal, finite, rfl⟩

/-- The enumeration is exact. It finds nothing exactly if no total over an injective map is finite,
and otherwise the first of the cheapest maps with its total; and no search leaves a trace in the
columns that are taken or current. -/
theorem enumerateMinimum_exact (wide : cost.rows ≤ cost.cols) (small : cost.cols ≤ 10) :
    (enumerateMinimum cost = .ok (infinity, []) ↔
      ∀ columns, Function.Injective columns → cost.totalOf columns = infinity) ∧
    ((∃ columns, Function.Injective columns ∧ cost.totalOf columns ≠ infinity) →
      ∃ columns, cost.FirstCheapest columns ∧ cost.totalOf columns < infinity ∧
        enumerateMinimum cost =
          .ok (cost.totalOf columns, (List.ofFn columns).map Fin.val)) ∧
    ∀ rows total state, (descend cost rows total state).used = state.used ∧
      (descend cost rows total state).current = state.current := by
  have irrefl : ¬ (infinity : Float) < infinity := fun below =>
    Binary64.lt_asymm Binary64.isNaN_infinity Binary64.isNaN_infinity below below
  rcases enumerateMinimum_cases wide small with
    ⟨result, infinite⟩ | ⟨found, cheapest, finite, result⟩
  · refine ⟨⟨fun _ => infinite, fun _ => result⟩, ?_, used_current_descend cost⟩
    rintro ⟨columns, injective, other⟩
    exact (other (infinite columns injective)).elim
  · have proper : cost.totalOf found ≠ infinity := fun eq => irrefl (eq ▸ finite)
    refine ⟨⟨fun nothing => ?_, fun infinite => ?_⟩, fun _ => ⟨found, cheapest, finite, result⟩,
      used_current_descend cost⟩
    · rw [result] at nothing
      exact (proper (Prod.mk.inj (Except.ok.inj nothing)).1).elim
    · exact (proper (infinite found cheapest.injective)).elim

/-- Three of the six ways to give two rows columns of their own cost nothing. -/
theorem enumerateMinimum_exact_tied :
    let cost : CostMatrix Float :=
      ⟨2, 3, #[0, 1, 0, 5, 0, 0], by decide, by decide, rfl, by decide, by decide +kernel⟩
    cost.rows ≤ cost.cols ∧ cost.cols ≤ 10 ∧
      (enumerateMinimum cost).toOption = some (0, [0, 1]) ∧
      ∃ columns, cost.FirstCheapest columns ∧ cost.totalOf columns < infinity ∧
        enumerateMinimum cost =
          .ok (cost.totalOf columns, (List.ofFn columns).map Fin.val) := by
  intro cost
  have seen : (enumerateMinimum cost).toOption = some (0, [0, 1]) := by decide +kernel
  refine ⟨by decide, by decide, seen, ?_⟩
  refine (enumerateMinimum_exact (by decide) (by decide)).2.1 ⟨fun row => ⟨row.val, ?_⟩, ?_, ?_⟩
  · exact row.isLt.trans (by decide)
  · exact fun first second same => Fin.ext (Fin.mk.inj same)
  · decide +kernel

end LinearAssignment
