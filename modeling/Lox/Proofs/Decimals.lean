import Lox.Proofs.Rounding
import Mathlib.Tactic.Ring

/-!
# Decimals of one value

A decimal with fewer zeros at its end denotes the same number with a higher power of ten. The normal
form of a decimal has no such zeros left, so no decimal of the same value has fewer digits. Written
out as a numeral, with a power of ten or without one, a decimal keeps its value.
-/

namespace Lox

namespace Decimal

/-! ## Normal form -/

/-- A multiple of a power of ten is one of each lower power. -/
theorem mul_zpow_add (a k : Nat) (e : Int) :
    (a : ℚ) * 10 ^ (e + k) = (a * 10 ^ k : Nat) * (10 : ℚ) ^ e := by
  rw [zpow_add₀ (by norm_num), zpow_natCast]
  push_cast
  ring

theorem value_eq_mul {d : Decimal} {e : Int} (h : e ≤ d.exponent) :
    d.value = (d.coefficient * 10 ^ (d.exponent - e).toNat : Nat) * (10 : ℚ) ^ e := by
  obtain ⟨k, hk⟩ := Int.le.dest h
  have hsub : (d.exponent - e).toNat = k := by omega
  rw [value, hsub, ← hk, mul_zpow_add]

/-- A decimal denotes the number of a finer one if it has fewer zeros. -/
theorem value_eq_iff_of_le {d d' : Decimal} (h : d'.exponent ≤ d.exponent) :
    d.value = d'.value ↔
      d'.coefficient = d.coefficient * 10 ^ (d.exponent - d'.exponent).toNat := by
  have hpow : (10 : ℚ) ^ d'.exponent ≠ 0 := zpow_ne_zero _ (by norm_num)
  rw [value_eq_mul h, value, mul_left_inj' hpow, Nat.cast_inj, eq_comm]

/-- Decimals with one power of ten are in the order of their coefficients. -/
theorem mul_zpow_lt_iff {a b : Nat} {e : Int} :
    (a : ℚ) * 10 ^ e < b * 10 ^ e ↔ a < b := by
  have hpos : (0 : ℚ) < 10 ^ e := zpow_pos (by norm_num) e
  rw [mul_lt_mul_iff_of_pos_right hpos, Nat.cast_lt]

theorem value_normalize (d : Decimal) : d.normalize.value = d.value := by
  fun_induction normalize d with
  | case1 d h ih =>
    rw [ih, value_eq_iff_of_le (by simp)]
    have hexp : (d.exponent + 1 - d.exponent).toNat = 1 := by omega
    rw [hexp]
    dsimp only
    omega
  | case2 d h => rfl

theorem normalize_coefficient (d : Decimal) :
    d.normalize.coefficient = 0 ∨ d.normalize.coefficient % 10 ≠ 0 := by
  fun_induction normalize d with
  | case1 d h ih => exact ih
  | case2 d h => omega

/-- No decimal of the same value has a smaller coefficient. -/
theorem coefficient_normalize_le {d d' : Decimal} (h : d.value = d'.value) :
    d.normalize.coefficient ≤ d'.coefficient := by
  rw [← value_normalize d] at h
  rcases d.normalize_coefficient with hz | hz
  · omega
  · rcases Int.le_total d'.exponent d.normalize.exponent with hle | hle
    · rw [(value_eq_iff_of_le hle).mp h]
      exact Nat.le_mul_of_pos_right _ (Nat.pow_pos (by decide))
    · -- with a lower power of ten the coefficient would end in a zero, unless the powers are equal
      have hc := (value_eq_iff_of_le hle).mp h.symm
      cases hk : (d'.exponent - d.normalize.exponent).toNat with
      | zero =>
        rw [hk, Nat.pow_zero, Nat.mul_one] at hc
        exact hc.le
      | succ k =>
        rw [hk, Nat.pow_succ, ← Nat.mul_assoc] at hc
        omega

theorem length_le_iff {d : Decimal} {k : Nat} (hk : 0 < k) :
    d.length ≤ k ↔ d.coefficient < 10 ^ k :=
  Nat.length_toDigits_le_iff (by decide) hk

theorem length_pos (d : Decimal) : 0 < d.length := Nat.length_toDigits_pos

/-! ## Numerals -/

/-- Written without a power of ten, a decimal keeps its value. -/
theorem value_positional (d : Decimal) (least : Nat) :
    (d.positional least).absolute.value = d.value := by
  obtain ⟨c, e⟩ := d
  cases e with
  | ofNat k =>
    have habs : (positional ⟨c, .ofNat k⟩ least).absolute =
        ⟨c * Nat.pow 10 (k + least), 0 - (least : Int)⟩ := rfl
    have hle : (0 : Int) - least ≤ Int.ofNat k := by simp only [Int.ofNat_eq_natCast]; omega
    have hexp : (Int.ofNat k - (0 - (least : Int))).toNat = k + least := by
      simp only [Int.ofNat_eq_natCast]; omega
    rw [habs]
    refine ((value_eq_iff_of_le hle).mpr ?_).symm
    rw [hexp]
    rfl
  | negSucc k =>
    have habs : (positional ⟨c, .negSucc k⟩ least).absolute =
        ⟨c * Nat.pow 10 (least - (k + 1)), 0 - (max (k + 1) least : Nat)⟩ := rfl
    have hle : (0 : Int) - (max (k + 1) least : Nat) ≤ Int.negSucc k := by omega
    have hexp : (Int.negSucc k - (0 - ((max (k + 1) least : Nat) : Int))).toNat =
        least - (k + 1) := by omega
    rw [habs]
    refine ((value_eq_iff_of_le hle).mpr ?_).symm
    rw [hexp]
    rfl

/-- With one digit before the point, the places make up for the power of ten. -/
theorem absolute_scientific (d : Decimal) : d.scientific.absolute = d := by
  have := d.length_pos
  obtain ⟨c, e⟩ := d
  simp only [scientific, Numeral.absolute, leadingExponent, Option.getD_some, Decimal.mk.injEq,
    true_and]
  omega

end Decimal

end Lox
