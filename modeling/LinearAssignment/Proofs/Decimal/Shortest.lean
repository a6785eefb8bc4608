import LinearAssignment.Decimal.Shortest
import LinearAssignment.Proofs.Decimal.Magnitude

/-! # Short decimals read back

A point of a grid that holds in the integral comparisons lies among the decimals that are rounded to
the number. A grid whose step is no longer than a quarter of a unit has one below the number, and
the last grid that is looked at is one of these: so whatever is found, and even what is taken where
nothing is, reads back.
-/

namespace LinearAssignment.Decimal

open Binary64 (Covers)

namespace Magnitude

/-- The decimals that are rounded to a magnitude. -/
def Reads (m : Magnitude) (form : ShortForm) : Prop :=
  Covers m.significand m.exponent (form.digits * 10 ^ form.exponent)

end Magnitude

variable {m : Magnitude} {exponent : ℤ} {index : ℕ} {tie : TieBreak}

/-! ## Grids -/

/-- A quarter of a unit of a magnitude, on the common scale of a grid. -/
private def quarter (m : Magnitude) (exponent : ℤ) : ℕ :=
  2 ^ (m.exponent - 2).toNat * 10 ^ (-exponent).toNat

/-- How often the common scale of a grid takes one. -/
private def scale (m : Magnitude) (exponent : ℤ) : ℚ :=
  2 ^ (2 - m.exponent).toNat * 10 ^ (-exponent).toNat

private theorem scale_pos (m : Magnitude) (exponent : ℤ) : 0 < scale m exponent := by
  rw [scale]
  positivity

private theorem zpow_mul_pow_toNat {base : ℚ} (nonzero : base ≠ 0) (power : ℤ) :
    base ^ power * base ^ (-power).toNat = base ^ power.toNat := by
  rw [← zpow_natCast, ← zpow_natCast, ← zpow_add₀ nonzero]
  congr 1
  omega

private theorem unit_scaled (m : Magnitude) (exponent : ℤ) :
    (2 : ℚ) ^ m.exponent * scale m exponent = 4 * quarter m exponent := by
  have power := zpow_mul_pow_toNat (two_ne_zero (α := ℚ)) (m.exponent - 2)
  rw [neg_sub, zpow_sub₀ two_ne_zero] at power
  rw [scale, quarter]
  push_cast
  rw [← power]
  ring

private theorem point_scaled (m : Magnitude) (exponent : ℤ) (index : ℕ) :
    index * (10 : ℚ) ^ exponent * scale m exponent =
      (index * (Grid.around m exponent).step : ℕ) := by
  have power := zpow_mul_pow_toNat (show (10 : ℚ) ≠ 0 by norm_num) exponent
  simp only [Grid.around, Nat.pow_eq]
  rw [scale, mul_assoc, mul_left_comm _ _ (10 ^ (-exponent).toNat), power]
  push_cast
  rfl

/-- The ends of the interval hold if the significand is even. -/
private theorem bounds_of_holds (holds : (Grid.around m exponent).holds index = true) :
    let ends := (4 * m.significand - if m.closeBelow then 1 else 2, 4 * m.significand + 2)
    let point := index * (Grid.around m exponent).step
    ends.1 * quarter m exponent ≤ point ∧ point ≤ ends.2 * quarter m exponent ∧
      (m.significand % 2 = 1 →
        ends.1 * quarter m exponent < point ∧ point < ends.2 * quarter m exponent) := by
  intro ends point
  rw [Grid.holds] at holds
  split_ifs at holds with closed
  · obtain ⟨low, high⟩ := (Bool.and_eq_true _ _).mp holds
    have even : m.significand % 2 = 0 := of_decide_eq_true closed
    exact ⟨of_decide_eq_true low, of_decide_eq_true high, fun odd => by omega⟩
  · obtain ⟨low, high⟩ := (Bool.and_eq_true _ _).mp holds
    have low' := of_decide_eq_true low
    have high' := of_decide_eq_true high
    exact ⟨low'.le, high'.le, fun _ => ⟨low', high'⟩⟩

/-- A point that holds reads back. -/
theorem reads_of_holds (stored : m.Stored) (holds : (Grid.around m exponent).holds index = true) :
    m.Reads ⟨index, exponent⟩ := by
  have positive := stored.positive
  have scaled := scale_pos m exponent
  have unit := unit_scaled m exponent
  have point := point_scaled m exponent index
  have low : ∀ part : ℚ, ((m.significand : ℚ) - part) * 2 ^ m.exponent * scale m exponent =
      (4 * m.significand - 4 * part) * quarter m exponent := fun part => by
    rw [mul_assoc, unit]
    ring
  have high : ((m.significand : ℚ) + 1 / 2) * 2 ^ m.exponent * scale m exponent =
      (4 * m.significand + 2) * quarter m exponent := by
    rw [mul_assoc, unit]
    ring
  obtain ⟨above, below, strict⟩ := bounds_of_holds holds
  generalize index * (Grid.around m exponent).step = place at point above below strict
  refine ⟨?_, ?_, fun odd => ⟨?_, ?_⟩⟩
  · rw [← mul_le_mul_iff_of_pos_right scaled, low, point]
    simp only [← stored.closeBelow_iff]
    dsimp only at above
    split_ifs at above ⊢ with close
    · have room : 1 ≤ 4 * m.significand := by omega
      have above' : ((4 * m.significand - 1 : ℕ) : ℚ) * quarter m exponent ≤ place := by
        exact_mod_cast above
      push_cast [room] at above'
      linarith
    · have room : 2 ≤ 4 * m.significand := by omega
      have above' : ((4 * m.significand - 2 : ℕ) : ℚ) * quarter m exponent ≤ place := by
        exact_mod_cast above
      push_cast [room] at above'
      linarith
  · rw [← mul_le_mul_iff_of_pos_right scaled, high, point]
    exact_mod_cast below
  · rw [← mul_lt_mul_iff_of_pos_right scaled, low, point]
    have wide : m.closeBelow = false := by
      by_contra close
      have := (stored.closeBelow_iff.mp (Bool.not_eq_false _ ▸ close)).1
      omega
    have above := (strict odd).1
    simp only [wide, Bool.false_eq_true, if_false] at above
    have room : 2 ≤ 4 * m.significand := by omega
    have above' : ((4 * m.significand - 2 : ℕ) : ℚ) * quarter m exponent < place := by
      exact_mod_cast above
    push_cast [room] at above'
    linarith
  · rw [← mul_lt_mul_iff_of_pos_right scaled, high, point]
    exact_mod_cast (strict odd).2

/-- What is found on a grid is one of the two neighbours, and it holds. -/
theorem holds_of_nearest? {g : Grid} (found : g.nearest? tie = some index) :
    g.holds index = true := by
  cases below : g.holds (g.value / g.step) with
  | false =>
    cases above : g.holds (g.value / g.step + 1) with
    | false =>
      simp only [Grid.nearest?, below, above] at found
      contradiction
    | true =>
      simp only [Grid.nearest?, below, above] at found
      exact Option.some.inj found ▸ above
  | true =>
    cases above : g.holds (g.value / g.step + 1) with
    | false =>
      simp only [Grid.nearest?, below, above] at found
      exact Option.some.inj found ▸ below
    | true =>
      have sides : g.value / g.step = index ∨ g.value / g.step + 1 = index := by
        cases tie with
        | up =>
          simp only [Grid.nearest?, below, above] at found
          split_ifs at found
          · exact .inl (Option.some.inj found)
          · exact .inr (Option.some.inj found)
          · exact .inr (Option.some.inj found)
        | toEven =>
          simp only [Grid.nearest?, below, above] at found
          split_ifs at found
          · exact .inl (Option.some.inj found)
          · exact .inr (Option.some.inj found)
          · exact .inl (Option.some.inj found)
          · exact .inr (Option.some.inj found)
      rcases sides with rfl | rfl
      · exact below
      · exact above

/-! ## Descending the grids -/

/-- On a grid whose step is no longer than a quarter of a unit the point below the number holds. -/
private theorem holds_below (positive : 0 < m.significand)
    (fine : (Grid.around m exponent).step ≤ quarter m exponent) :
    (Grid.around m exponent).holds
      ((Grid.around m exponent).value / (Grid.around m exponent).step) = true := by
  have step : 0 < (Grid.around m exponent).step := by
    simp only [Grid.around, Nat.pow_eq]
    positivity
  set g := Grid.around m exponent
  have below : g.value / g.step * g.step ≤ g.value := Nat.div_mul_le_self ..
  have above : g.value < g.value / g.step * g.step + g.step := Nat.lt_div_mul_add step
  have value : g.value = 4 * m.significand * quarter m exponent := rfl
  have low : g.low + quarter m exponent ≤ g.value := by
    have room : (4 * m.significand - if m.closeBelow then 1 else 2) + 1 ≤ 4 * m.significand := by
      split_ifs <;> omega
    calc g.low + quarter m exponent
      _ = ((4 * m.significand - if m.closeBelow then 1 else 2) + 1) * quarter m exponent :=
        (Nat.succ_mul ..).symm
      _ ≤ g.value := Nat.mul_le_mul_right _ room
  have high : g.value < g.high := by
    have some : 0 < quarter m exponent := step.trans_le fine
    exact Nat.mul_lt_mul_of_pos_right (by omega) some
  rw [Grid.holds]
  split_ifs with closed
  · rw [decide_eq_true (by omega), decide_eq_true (by omega)]
    rfl
  · rw [decide_eq_true (by omega), decide_eq_true (by omega)]
    rfl

private theorem reads_of_coarsest (stored : m.Stored) (tie : TieBreak) (grids : ℕ) (exponent : ℤ)
    (fine : (Grid.around m (exponent - grids)).step ≤ quarter m (exponent - grids)) :
    m.Reads (coarsest m tie grids exponent) := by
  induction grids generalizing exponent with
  | zero =>
    rw [Nat.cast_zero, sub_zero] at fine
    exact reads_of_holds stored (holds_below stored.positive fine)
  | succ grids ih =>
    rw [coarsest]
    cases found : (Grid.around m exponent).nearest? tie with
    | some index => exact reads_of_holds stored (holds_of_nearest? found)
    | none =>
      refine ih (exponent - 1) ?_
      rwa [Nat.cast_succ, ← sub_sub, sub_right_comm] at fine

/-- `30103 / 100000` bounds the decimal logarithm of two well enough for every number of bits. -/
private theorem log_table :
    (∀ bits : Fin 1025, 10 ^ (bits.val * 30103 / 100000) * 2 ^ 55 ≤ 10 ^ 18 * 2 ^ bits.val) ∧
      ∀ bits : Fin 1074,
        2 ^ bits.val * 2 ^ 55 ≤ 10 ^ 18 * 10 ^ ((bits.val * 30103 + 99999) / 100000) := by
  decide +kernel

private theorem ten_zpow_le {bits : ℤ} (low : -1073 ≤ bits) (high : bits ≤ 1024) :
    (10 : ℚ) ^ (bits * 30103 / 100000 - 18) ≤ 2 ^ (bits - 55) := by
  rw [zpow_sub₀ (by norm_num), zpow_sub₀ two_ne_zero,
    div_le_div_iff₀ (by positivity) (by positivity), mul_comm (2 ^ bits)]
  rcases le_total 0 bits with whole | below
  · obtain ⟨n, rfl⟩ := Int.eq_ofNat_of_zero_le whole
    have entry := log_table.1 ⟨n, by omega⟩
    have power : (n : ℤ) * 30103 / 100000 = (n * 30103 / 100000 : ℕ) := by omega
    rw [power, zpow_natCast, zpow_natCast]
    exact_mod_cast entry
  · obtain ⟨n, rfl⟩ : ∃ n : ℕ, bits = -n := ⟨bits.natAbs, by omega⟩
    have entry := log_table.2 ⟨n, by omega⟩
    have power : -(n : ℤ) * 30103 / 100000 = -((n * 30103 + 99999) / 100000 : ℕ) := by omega
    rw [power, zpow_neg, zpow_neg, zpow_natCast, zpow_natCast, inv_mul_eq_div,
      ← div_eq_mul_inv, div_le_div_iff₀ (by positivity) (by positivity), mul_comm]
    exact_mod_cast entry

/-- The shortest decimal reads back. -/
theorem reads_shortest (stored : m.Stored) (tie : TieBreak) : m.Reads (shortest tie m) := by
  obtain ⟨narrow, low, high, full⟩ := stored.canonical
  have log : m.significand.log2 < 53 := (Nat.log2_lt stored.positive.ne').mpr narrow
  refine reads_of_coarsest stored tie 20 _ ?_
  set bits : ℤ := m.significand.log2 + m.exponent + 1
  have place : bits * 30103 / 100000 + 2 - ((20 : ℕ) : ℤ) = bits * 30103 / 100000 - 18 := by omega
  have scaled := scale_pos m (bits * 30103 / 100000 - 18)
  have step := point_scaled m (bits * 30103 / 100000 - 18) 1
  have unit := unit_scaled m (bits * 30103 / 100000 - 18)
  have fine : (10 : ℚ) ^ (bits * 30103 / 100000 - 18) ≤ 2 ^ m.exponent / 4 :=
    calc (10 : ℚ) ^ (bits * 30103 / 100000 - 18)
      _ ≤ 2 ^ (bits - 55) := ten_zpow_le (by omega) (by omega)
      _ ≤ 2 ^ (m.exponent - 2) := zpow_le_zpow_right₀ one_le_two (by omega)
      _ = 2 ^ m.exponent / 4 := by rw [zpow_sub₀ two_ne_zero]; norm_num
  rw [place]
  rw [Nat.cast_one, one_mul, one_mul] at step
  have scaled_fine := mul_le_mul_of_nonneg_right fine scaled.le
  rw [step, div_mul_eq_mul_div, unit, mul_div_cancel_left₀ _ (by norm_num)] at scaled_fine
  exact_mod_cast scaled_fine

end LinearAssignment.Decimal
