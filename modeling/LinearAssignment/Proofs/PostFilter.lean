import LinearAssignment.Proofs.Cost.Binary64
import LinearAssignment.Proofs.Refusal
import LinearAssignment.Proofs.Retention

/-! # A limit that only drops pairs

Without a part in the optimisation a limit should drop pairs and do nothing else. It does, in
rounded arithmetic too, where it leaves the square problem alone: in a square matrix, and in a
rectangular one whose sentinel it does not raise. A limit far above the costs raises the sentinel so
far that the costs are lost in its last place, and then other pairs are found.
-/

namespace LinearAssignment

open CostNumber (infinity isFinite)

section

variable {κ : Type} [CostNumber κ] {cost : CostMatrix κ} {options : Options κ} {limit : κ}

/-- The same options under another limit. -/
def Options.under (options : Options κ) (limit : κ) : Options κ :=
  { options with costLimit := limit }

/-- A limit that is not above the largest cost does not raise the sentinel. -/
theorem CostMatrix.sentinelCost_of_not_lt [LawfulCost κ] (reached : ¬ cost.maxCost < limit) :
    cost.sentinelCost limit = cost.sentinelCost infinity := by
  have unlimited : cost.sentinelReference infinity = cost.maxCost := by
    rw [sentinelReference, LawfulCost.isFinite_infinity]
    rfl
  have limited : cost.sentinelReference limit = cost.maxCost := by
    rw [sentinelReference, CostNumber.larger, if_neg reached, ite_self]
  rw [sentinelCost, sentinelCost, unlimited, limited]

/-- Without the limit in the optimisation, the square problem depends on it by the sentinel only. -/
theorem SquareProblem.ofCost_under (strategy : options.limitStrategy = .postFilter) {other : κ}
    (same : cost.rows = cost.cols ∨ cost.sentinelCost limit = cost.sentinelCost other) :
    ofCost cost (options.under limit) = ofCost cost (options.under other) := by
  have apart : ∀ limit : κ, ¬ ((options.under limit).limitStrategy = .augmented ∧
      (options.under limit).isLimited = true) := by
    rintro limit ⟨augmented, _⟩
    rw [Options.under, strategy] at augmented
    contradiction
  rw [ofCost, ofCost, if_neg (apart limit), if_neg (apart other)]
  by_cases square : cost.rows = cost.cols
  · rw [dif_pos square, dif_pos square]
    rfl
  · have padded : byPadding cost (options.under limit).costLimit =
        byPadding cost (options.under other).costLimit := by
      rw [byPadding, byPadding, Options.under, Options.under, same.resolve_left square]
    rw [dif_neg square, dif_neg square, padded]
    rfl

variable {n : Nat} {colOf : Vector (Option (Fin n)) n}

namespace Extraction

/-- Under a limit that no cost exceeds, the limit has no part in what is taken up. -/
theorem ofSquare_eq_of_forall_not_lt (colOf : Vector (Option (Fin n)) n) {other : κ}
    (above : ∀ row col, ¬ limit < cost.get row col)
    (above' : ∀ row col, ¬ other < cost.get row col) :
    ofSquare cost colOf limit = ofSquare cost colOf other := by
  have same : retain cost colOf limit = retain cost colOf other := by
    funext extraction row
    rw [retain, retain]
    cases realColumn? cost colOf row with
    | none => rfl
    | some col =>
      dsimp only
      rw [if_neg (above row col), if_neg (above' row col)]
  rw [ofSquare, ofSquare, same]

/-- The pairs that are taken up from a permutation. -/
theorem pairs_ofSquare {permutation : Equiv.Perm (Fin n)}
    (matched : colOf = (Matching.ofPerm permutation).colOf) (limit : κ) (metrics : Metrics)
    (certificate : Option (Certificate κ)) :
    ((ofSquare cost colOf limit).toAssignment metrics certificate).pairs =
      (List.finRange cost.rows).filterMap fun row =>
        (kept? cost colOf limit row).map fun col => (row.val, col.val) := by
  subst matched
  have collects : (ofSquare cost _ limit).Collects cost (Matching.ofPerm permutation).colOf limit
      (List.finRange cost.rows) := ofSquare_collects row_unique
  rw [pairs_toAssignment]
  refine List.filterMap_congr fun row member => ?_
  rw [collects.rowToCol, if_pos member]

end Extraction

end

/-! ## Rounded costs -/

section

variable {cost : CostMatrix Float} {options : Options Float} {limit : Float}

/-- Whether a pair costs no more than a limit. -/
def CostMatrix.within (cost : CostMatrix Float) (limit : Float) (pair : Nat × Nat) : Bool :=
  (cost.get? pair.1 pair.2).any fun value => decide (value ≤ limit)

/-- What is retained under a finite limit is what is retained without one, as far as it is within
the limit. -/
theorem Extraction.kept?_under {n : Nat} {colOf : Vector (Option (Fin n)) n}
    (finite : isFinite limit = true) (row : Fin cost.rows) :
    kept? cost colOf limit row =
      (kept? cost colOf infinity row).filter fun col => decide (cost.get row col ≤ limit) := by
  have free (col : Fin cost.cols) : ¬ infinity < cost.get row col :=
    RoundedCost.not_infinity_lt (cost.isFinite_get row col)
  have within (col : Fin cost.cols) : ¬ limit < cost.get row col ↔ cost.get row col ≤ limit := by
    have finite' := cost.isFinite_get row col
    rw [RoundedCost.lt_iff finite finite', RoundedCost.le_iff finite' finite, not_lt]
  ext col
  rw [kept?_eq_some_iff, Option.filter_eq_some_iff,
    kept?_eq_some_iff, decide_eq_true_iff, within, and_iff_left (free col)]

/-- The pairs that are retained under a finite limit. -/
theorem Extraction.pairs_under {n : Nat} {colOf : Vector (Option (Fin n)) n}
    {permutation : Equiv.Perm (Fin n)} (matched : colOf = (Matching.ofPerm permutation).colOf)
    (finite : isFinite limit = true) (metrics metrics' : Metrics)
    (certificate certificate' : Option (Certificate Float)) :
    ((ofSquare cost colOf limit).toAssignment metrics certificate).pairs =
      ((ofSquare cost colOf infinity).toAssignment metrics' certificate').pairs.filter
        (cost.within limit) := by
  rw [pairs_ofSquare matched, pairs_ofSquare matched, List.filter_filterMap]
  refine List.filterMap_congr fun row _ => ?_
  rw [kept?_under finite]
  cases kept? cost colOf infinity row with
  | none => rfl
  | some col =>
    have entry : cost.within limit (row.val, col.val) = decide (cost.get row col ≤ limit) := by
      rw [CostMatrix.within, cost.get?_val, Option.any_some]
    rw [Option.map_some, Option.filter_some, Option.filter_some, entry, Option.map_if]

/-- A finite limit passes the check, and so does none. -/
theorem Options.check_under (finite : isFinite limit = true) :
    (options.under limit).check = .ok () := by
  have number : CostNumber.isNaN limit = false := LawfulCost.isNaN_of_isFinite finite
  have proper : (limit == -infinity) = false := Binary64.beq_neg_infinity finite
  rw [check, under]
  simp only [number, proper, Bool.false_eq_true, if_false]

theorem Options.check_under_infinity : (options.under infinity).check = .ok () := by
  have number : CostNumber.isNaN (infinity : Float) = false := by decide +kernel
  have proper : ((infinity : Float) == -infinity) = false := by decide +kernel
  rw [check, under]
  simp only [number, proper, Bool.false_eq_true, if_false]

/-- A limit that has no part in the optimisation and leaves the square problem alone only drops
pairs: those that cost more than it are gone, and all others are as they are without it. If no cost
exceeds it, it changes nothing at all. -/
theorem solve_postFilter_filters (strategy : options.limitStrategy = .postFilter)
    (finite : isFinite limit = true)
    (undisturbed : cost.rows = cost.cols ∨
      cost.sentinelCost limit = cost.sentinelCost infinity) :
    let limited := solve cost (options.under limit)
    let free := solve cost (options.under infinity)
    limited.map (·.pairs) = free.map (·.pairs.filter (cost.within limit)) ∧
      ((∀ row col, cost.get row col ≤ limit) → limited = free) := by
  intro limited free
  have square := SquareProblem.ofCost_under strategy undisturbed
  cases made : SquareProblem.ofCost cost (options.under infinity) with
  | error refusal =>
    have limitedly : limited = .error refusal :=
      solve_eq_of_ofCost_error (Options.check_under finite) (square.trans made)
    have freely : free = .error refusal :=
      solve_eq_of_ofCost_error Options.check_under_infinity made
    rw [limitedly, freely]
    exact ⟨rfl, fun _ => rfl⟩
  | ok problem =>
    have limitedly : limited = _ :=
      solve_eq_of_ofCost (Options.check_under finite) (square.trans made)
    have freely : free = _ := solve_eq_of_ofCost Options.check_under_infinity made
    have start : (options.under limit).initialization = (options.under infinity).initialization :=
      rfl
    rw [limitedly, freely, start]
    cases ended : (problem.solution (options.under infinity).initialization).1 with
    | some row => exact ⟨rfl, fun _ => rfl⟩
    | none =>
      obtain ⟨permutation, matched⟩ := exists_perm_of_solveSquare (Prod.ext ended rfl)
      have colOf := congrArg Matching.colOf matched
      refine ⟨congrArg Except.ok ?_, fun within => congrArg Except.ok ?_⟩
      · exact Extraction.pairs_under colOf finite ..
      · have above (row : Fin cost.rows) (col : Fin cost.cols) : ¬ limit < cost.get row col := by
          have finite' := cost.isFinite_get row col
          rw [RoundedCost.lt_iff finite finite', not_lt, ← RoundedCost.le_iff finite' finite]
          exact within row col
        have free (row : Fin cost.rows) (col : Fin cost.cols) : ¬ infinity < cost.get row col :=
          RoundedCost.not_infinity_lt (cost.isFinite_get row col)
        rw [SquareProblem.answer, SquareProblem.answer, Options.under, Options.under]
        dsimp only
        rw [Extraction.ofSquare_eq_of_forall_not_lt _ above free]

/-- A tall matrix with a limit below its largest cost, which drops one of the two pairs. -/
theorem solve_postFilter_filters_tall :
    let cost : CostMatrix Float :=
      ⟨3, 2, #[4, 1, 2, 9, 7, 3], by decide, by decide, rfl, by decide, by decide +kernel⟩
    let options : Options Float := { extendCost := true }
    (solve cost (options.under 1.5)).toOption.map (·.pairs) = some [(0, 1)] ∧
      (solve cost (options.under infinity)).toOption.map (·.pairs) = some [(0, 1), (1, 0)] ∧
      (solve cost (options.under 1.5)).map (·.pairs) =
        (solve cost (options.under infinity)).map (·.pairs.filter (cost.within 1.5)) := by
  intro cost options
  have finite : isFinite (1.5 : Float) = true := by decide +kernel
  have reached : ¬ cost.maxCost < (1.5 : Float) := by decide +kernel
  have undisturbed := CostMatrix.sentinelCost_of_not_lt reached
  refine ⟨by decide +kernel, by decide +kernel, ?_⟩
  exact (solve_postFilter_filters rfl finite (.inr undisturbed)).1

/-- A limit far above all costs raises the sentinel so far that it absorbs them. The rows then look
alike to the search, and the dearer one is matched. -/
theorem solve_postFilter_absorbed :
    let cost : CostMatrix Float :=
      ⟨2, 1, #[8, 3], by decide, by decide, rfl, by decide, by decide +kernel⟩
    let options : Options Float := { extendCost := true }
    (∀ row col, cost.get row col ≤ (1e18 : Float)) ∧
      (solve cost (options.under 1e18)).toOption.map
          (fun answer => (answer.pairs, answer.totalCost)) = some ([(0, 0)], 8) ∧
      (solve cost (options.under infinity)).toOption.map
          (fun answer => (answer.pairs, answer.totalCost)) = some ([(1, 0)], 3) := by
  intro cost options
  refine ⟨?_, by decide +kernel, by decide +kernel⟩
  decide +kernel

end

end LinearAssignment
