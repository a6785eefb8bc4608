import LinearAssignment.Search

/-! # Scratch memory

A solve works on the potentials, the search and the matching of its square. They are kept between
solves so that their memory is used again; the next solve asks for room and clears all of them.
-/

namespace LinearAssignment

/-- Everything that a solve of an `n` by `n` square works on. -/
structure Scratch (κ : Type) (n : Nat) where
  potentials : Potentials κ n
  search : Search κ n
  matching : Matching n

namespace Scratch

variable {κ : Type} [CostNumber κ]

/-- Clear scratch of any side for a square of side `n`: zero potentials, nothing known and nothing
matched. -/
def cleared {m : Nat} (scratch : Scratch κ m) (n : Nat) : Scratch κ n where
  potentials :=
    { row := refill scratch.potentials.row.toArray n (CostNumber.ofNat 0)
      col := refill scratch.potentials.col.toArray n (CostNumber.ofNat 0) }
  search := scratch.search.reset n
  matching := .empty

/-- Scratch for no problem at all. -/
def nothing : Scratch κ 0 where
  potentials := ⟨#v[], #v[]⟩
  search := ⟨#v[], #v[], #v[], #[]⟩
  matching := .empty

end Scratch

/-- Scratch that is kept between solves. -/
structure Workspace (κ : Type) where
  /-- The side of the largest square that there is room for. -/
  capacity : Nat
  /-- The side of the square that was worked on last. -/
  dimension : Nat
  scratch : Scratch κ dimension

namespace Workspace

variable {κ : Type} [CostNumber κ]

/-- No room at all. -/
def empty : Workspace κ := ⟨0, 0, .nothing⟩

/-- Room for squares up to some side. -/
def withCapacity (dimension : Nat) : Except AllocationFailure (Workspace κ) := do
  return { empty with capacity := ← reserve 0 dimension }

/-- Room for a square of side `n`, and cleared scratch for it. -/
def prepare (workspace : Workspace κ) (n : Nat) :
    Except AllocationFailure (Nat × Scratch κ n) := do
  return (← reserve workspace.capacity n, workspace.scratch.cleared n)

end Workspace

end LinearAssignment
