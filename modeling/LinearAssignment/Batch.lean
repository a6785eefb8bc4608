import LinearAssignment.Solver

/-! # Batches

Independent matrices are divided among workers. Each worker starts with a fresh handle and solves
its share on it one after the other; the answers come back in the order of the matrices.
-/

namespace LinearAssignment

variable {κ : Type} [CostNumber κ]

/-- A division of `count` matrices among workers: for each worker the matrices of its share, in the
order in which it takes them. -/
structure Schedule (count : Nat) where
  shares : List (List (Fin count))
  covers : ∀ index, ∃ share ∈ shares, index ∈ share

namespace Schedule

/-- One worker takes all matrices in their order. -/
def sequential (count : Nat) : Schedule count where
  shares := [List.finRange count]
  covers index := ⟨_, List.mem_singleton_self _, List.mem_finRange index⟩

end Schedule

/-- Solve some matrices on one handle, one after the other. -/
def Solver.solveEach (solver : Solver κ) :
    List (CostMatrix κ) → List (Except (Refusal κ) (Assignment κ))
  | [] => []
  | cost :: rest =>
    let call := solver.solve cost
    call.result :: call.solver.solveEach rest

/-- The answers of one worker, each with the place of its matrix. -/
def Batch.solveShare (options : Options κ) (matrices : List (CostMatrix κ))
    (share : List (Fin matrices.length)) :
    List (Fin matrices.length × Except (Refusal κ) (Assignment κ)) :=
  share.zip ((Solver.ofOptions options).solveEach (share.map matrices.get))

/-- Solve a batch under a schedule. -/
def Batch.solveUnder (options : Options κ) (matrices : List (CostMatrix κ))
    (schedule : Schedule matrices.length) : List (Except (Refusal κ) (Assignment κ)) :=
  let answers := schedule.shares.flatMap (Batch.solveShare options matrices)
  (List.finRange matrices.length).filterMap fun index => answers.lookup index

/-- Solve a batch. -/
def Batch.solve (options : Options κ) (matrices : List (CostMatrix κ)) :
    List (Except (Refusal κ) (Assignment κ)) :=
  Batch.solveUnder options matrices (.sequential matrices.length)

end LinearAssignment
