import LinearAssignment.Capacity
import Mathlib.Tactic.SplitIfs

/-! # When capacity is granted

Room for more entries is refused where their bytes lie beyond the address space. Capacity that is
kept has been granted before, so it never lets a request through that would be refused without it.
-/

namespace LinearAssignment

/-- Capacity is granted if it is there already or fits into the address space. -/
theorem reserve_eq_ok_iff {capacity entries granted : Nat} :
    reserve capacity entries = .ok granted ↔
      granted = max capacity entries ∧
        (entries ≤ capacity ∨ entryBytes * entries ≤ addressableBytes) := by
  have addressable : addressableBytes ≤ maximumBytes := by decide
  rw [reserve]
  split_ifs with held beyond refused
  · simp only [Except.ok.injEq, held, true_or, and_true]
    omega
  · simp only [false_iff]
    omega
  · simp only [false_iff]
    omega
  · simp only [Except.ok.injEq]
    omega

/-- What fits into the address space is granted. -/
theorem exists_reserve_eq_ok {entries : Nat} (bound : entryBytes * entries ≤ addressableBytes) :
    ∃ capacity, reserve 0 entries = .ok capacity :=
  ⟨max 0 entries, reserve_eq_ok_iff.mpr ⟨rfl, .inr bound⟩⟩

/-- From capacity that fits, room is granted and refused as it is from none. -/
theorem reserve_of_fits {capacity : Nat} (fits : entryBytes * capacity ≤ addressableBytes)
    (entries : Nat) : reserve capacity entries = (reserve 0 entries).map (max capacity) := by
  by_cases held : entries ≤ capacity
  · have bytes : entryBytes * entries ≤ entryBytes * capacity := Nat.mul_le_mul_left _ held
    have fresh : reserve 0 entries = .ok entries :=
      reserve_eq_ok_iff.mpr ⟨(Nat.zero_max entries).symm, .inr (Nat.le_trans bytes fits)⟩
    rw [fresh, Except.map]
    exact reserve_eq_ok_iff.mpr ⟨rfl, .inl held⟩
  · have positive : ¬ entries ≤ 0 := by omega
    rw [reserve, reserve, if_neg held, if_neg positive]
    split_ifs
    · rfl
    · rfl
    · rw [Except.map, Nat.max_eq_right (by omega)]

end LinearAssignment
