import Lox.Proofs.Rounding
import Mathlib.Tactic.Linarith
import Mathlib.Tactic.Ring

/-!
# Rounding turns halfway between neighbours

Which double is nearest to a number is decided by the points that lie halfway between neighbouring
doubles: the nearest magnitude is above `k` exactly if the number is above the point halfway between
`k` and `k + 1`, or at this point if `k` is odd. The last of these points lies between the largest
double and the one that would follow it, and from there on everything is infinite.
-/

namespace Lox

/-! ## Rounding a quotient to a whole number -/

/--
A quotient lies at most half a unit from the number it is rounded to, and if it is half a unit then
this number is even.
-/
theorem roundHalfEven_bounds (n : Nat) {d : Nat} (hd : 0 < d) :
    (2 * n < 2 * (roundHalfEven n d * d) + d ∨
      2 * n = 2 * (roundHalfEven n d * d) + d ∧ roundHalfEven n d % 2 = 0) ∧
    (2 * (roundHalfEven n d * d) < 2 * n + d ∨
      2 * (roundHalfEven n d * d) = 2 * n + d ∧ roundHalfEven n d % 2 = 0) := by
  have hn := Nat.div_add_mod' n d
  have hr := Nat.mod_lt n hd
  have hnext : (n / d + 1) * d = n / d * d + d := Nat.succ_mul _ _
  unfold roundHalfEven
  dsimp only
  split
  · omega
  · split
    · rw [hnext]
      omega
    · -- halfway: the even one of the two neighbours
      rcases Nat.mod_two_eq_zero_or_one (n / d) with hpar | hpar
      · rw [hpar, Nat.add_zero]
        omega
      · rw [hpar, hnext]
        omega

theorem le_roundHalfEven (n d : Nat) :
    n / d ≤ roundHalfEven n d ∧ roundHalfEven n d ≤ n / d + 1 := by
  unfold roundHalfEven
  dsimp only
  split
  · omega
  · split
    · omega
    · omega

namespace Binary64

/-! ## Neighbours -/

/-- Where the number of units is a significand of 53 bits, it is shifted by whole binades. -/
theorem units_add {s j : Nat} (hs : s ≤ 2 ^ 53) (hj : j = 0 ∨ 2 ^ 52 ≤ s) :
    units (j * 2 ^ 52 + s) = s * 2 ^ j := by
  simp only [units, Nat.pow_eq]
  by_cases hlt : s < 2 ^ 52
  · have hz : j = 0 := by omega
    subst hz
    rw [Nat.zero_mul, Nat.zero_add, if_pos hlt, Nat.pow_zero, Nat.mul_one]
  · rw [if_neg (by omega)]
    by_cases hs' : s = 2 ^ 53
    · -- a carry: the first number of the next binade
      have hmod : (j * 2 ^ 52 + s) % 2 ^ 52 = 0 := by omega
      have hdiv : (j * 2 ^ 52 + s) / 2 ^ 52 - 1 = j + 1 := by omega
      have hpow : 2 ^ (j + 1) = 2 * 2 ^ j := Nat.pow_succ'
      have hcarry : (2 ^ 52 + 0) * 2 = 2 ^ 53 := by decide
      rw [hmod, hdiv, hs', hpow, ← Nat.mul_assoc, hcarry]
    · have hmod : (j * 2 ^ 52 + s) % 2 ^ 52 = s - 2 ^ 52 := by omega
      have hdiv : (j * 2 ^ 52 + s) / 2 ^ 52 - 1 = j := by omega
      rw [hmod, hdiv, Nat.add_sub_cancel' (Nat.le_of_not_lt hlt)]

/-- The distance of a magnitude to the next one. -/
def gap (m : Nat) : Nat := 2 ^ (m / 2 ^ 52 - 1)

theorem gap_pos (m : Nat) : 0 < gap m := Nat.two_pow_pos _

theorem units_succ (m : Nat) : units (m + 1) = units m + gap m := by
  simp only [units, gap, Nat.pow_eq]
  by_cases hlt : m + 1 < 2 ^ 52
  · have hdiv : m / 2 ^ 52 - 1 = 0 := by omega
    rw [if_pos hlt, if_pos (by omega), hdiv, Nat.pow_zero]
  · by_cases hmod : m % 2 ^ 52 + 1 = 2 ^ 52
    · -- the next number opens a binade
      have hmod' : (m + 1) % 2 ^ 52 = 0 := by omega
      rw [if_neg hlt, hmod']
      by_cases hm : m < 2 ^ 52
      · have hdiv : m / 2 ^ 52 - 1 = 0 := by omega
        have hdiv' : (m + 1) / 2 ^ 52 - 1 = 0 := by omega
        rw [if_pos hm, hdiv, hdiv']
        omega
      · have hdiv : (m + 1) / 2 ^ 52 - 1 = m / 2 ^ 52 - 1 + 1 := by omega
        have hpow : 2 ^ (m / 2 ^ 52 - 1 + 1) = 2 * 2 ^ (m / 2 ^ 52 - 1) := Nat.pow_succ'
        have hfull : (2 ^ 52 + m % 2 ^ 52).succ = 2 ^ 52 * 2 := by omega
        rw [if_neg hm, hdiv, hpow, Nat.add_zero, ← Nat.succ_mul, hfull, Nat.mul_assoc]
    · have hmod' : (m + 1) % 2 ^ 52 = m % 2 ^ 52 + 1 := by omega
      have hdiv : (m + 1) / 2 ^ 52 = m / 2 ^ 52 := by omega
      rw [if_neg hlt, if_neg (by omega), hmod', hdiv, ← Nat.succ_mul]
      rfl

theorem units_strictMono : StrictMono units := by
  refine strictMono_nat_of_lt_succ fun m => ?_
  have := gap_pos m
  rw [units_succ]
  omega

/-- A number of units is a number of 53 bits, shifted. -/
theorem exists_units_eq (m : Nat) : ∃ s < 2 ^ 53, units m = s * gap m := by
  simp only [units, gap, Nat.pow_eq]
  by_cases hm : m < 2 ^ 52
  · have hshift : m / 2 ^ 52 - 1 = 0 := by omega
    refine ⟨m, by omega, ?_⟩
    rw [if_pos hm, hshift, Nat.pow_zero, Nat.mul_one]
  · refine ⟨2 ^ 52 + m % 2 ^ 52, by omega, ?_⟩
    rw [if_neg hm]

/-- So a step is not too small, even for the number behind it. -/
theorem units_succ_le (m : Nat) : units (m + 1) ≤ 2 ^ 53 * gap m := by
  obtain ⟨s, hs, hunits⟩ := exists_units_eq m
  rw [units_succ, hunits, ← Nat.succ_mul]
  exact Nat.mul_le_mul_right _ hs

/-! ## The nearest magnitude -/

/-- Twice the number halfway between a magnitude and the next one, in units. -/
def turn (m : Nat) : Nat := units m + units (m + 1)

theorem turn_strictMono : StrictMono turn := by
  intro k m h
  have hk := units_strictMono h
  have hm := units_strictMono (Nat.succ_lt_succ h)
  exact Nat.add_lt_add hk hm

/-- A number is shifted so that 53 bits are left, unless it has fewer. -/
theorem shifted_bounds (y : Nat) :
    y / 2 ^ (y.log2 - 52) < 2 ^ 53 ∧ (y.log2 - 52 = 0 ∨ 2 ^ 52 ≤ y / 2 ^ (y.log2 - 52)) := by
  by_cases hy : y = 0
  · subst hy
    decide
  · have hpos : 0 < 2 ^ (y.log2 - 52) := Nat.two_pow_pos _
    refine ⟨?_, ?_⟩
    · rw [Nat.div_lt_iff_lt_mul hpos, ← Nat.pow_add]
      exact Nat.lt_of_lt_of_le Nat.lt_log2_self (Nat.pow_le_pow_right (by decide) (by omega))
    · by_cases hlog : y.log2 ≤ 52
      · exact .inl (by omega)
      · right
        rw [Nat.le_div_iff_mul_le hpos, ← Nat.pow_add, Nat.add_sub_cancel' (by omega)]
        exact Nat.log2_self_le hy

/-- Above a significand of 53 bits the next magnitude is at least one unit of its last place away. -/
theorem le_gap {s j : Nat} (hj : j = 0 ∨ 2 ^ 52 ≤ s) : 2 ^ j ≤ gap (j * 2 ^ 52 + s) := by
  refine Nat.pow_le_pow_right (by decide) ?_
  omega

/-- Below it the next one is exactly one unit away, unless a binade ends there. -/
theorem gap_below {s j k : Nat} (hs : s ≤ 2 ^ 53) (hj : j = 0 ∨ 2 ^ 52 ≤ s)
    (hk : j * 2 ^ 52 + s = k + 1) : gap k = 2 ^ j ∨ s = 2 ^ 52 ∧ j ≠ 0 := by
  by_cases hlow : s = 2 ^ 52 ∧ j ≠ 0
  · exact .inr hlow
  · left
    rw [gap]
    congr 1
    omega

/--
A quotient lies between the two halfway points around the magnitude that it is rounded to. At one of
these points the magnitude is even. The largest magnitudes are replaced by infinity.
-/
theorem nearest_between (n : Nat) {d : Nat} (hd : 0 < d) :
    ∃ m, nearest n d = min m infinity ∧
      (2 * (n * Nat.pow 2 1074) < d * turn m ∨
        2 * (n * Nat.pow 2 1074) = d * turn m ∧ m % 2 = 0) ∧
      ∀ k, m = k + 1 → (d * turn k < 2 * (n * Nat.pow 2 1074) ∨
        d * turn k = 2 * (n * Nat.pow 2 1074) ∧ m % 2 = 0) := by
  unfold nearest
  generalize n * Nat.pow 2 1074 = x
  have hquot := shifted_bounds (x / d)
  rw [Nat.div_div_eq_div_mul] at hquot
  simp only [Nat.pow_eq]
  generalize (x / d).log2 - 52 = j at *
  have hD : 0 < d * 2 ^ j := Nat.mul_pos hd (Nat.two_pow_pos j)
  obtain ⟨habove, hbelow⟩ := roundHalfEven_bounds x hD
  obtain ⟨hle, hge⟩ := le_roundHalfEven x (d * 2 ^ j)
  have hdiv := Nat.div_mul_le_self x (d * 2 ^ j)
  generalize roundHalfEven x (d * 2 ^ j) = s at *
  have hs : s ≤ 2 ^ 53 := by omega
  have hj : j = 0 ∨ 2 ^ 52 ≤ s := by omega
  have hunits : d * units (j * 2 ^ 52 + s) = s * (d * 2 ^ j) := by
    rw [units_add hs hj]
    ac_rfl
  refine ⟨j * 2 ^ 52 + s, rfl, ?_, ?_⟩
  · have hgap := Nat.mul_le_mul_left d (le_gap hj)
    rw [turn, units_succ, Nat.mul_add, Nat.mul_add, hunits]
    omega
  · intro k hk
    have hsum : d * units (k + 1) = d * units k + d * gap k := by rw [units_succ, Nat.mul_add]
    rw [← hk, hunits] at hsum
    rw [turn, Nat.mul_add, ← hk, hunits]
    rcases gap_below hs hj hk with hgap | ⟨hlow, hne⟩
    · rw [hgap] at hsum
      omega
    · -- at the start of a binade nothing has been rounded up
      have hpos := Nat.mul_pos hd (gap_pos k)
      have hfull : s * (d * 2 ^ j) ≤ x := by
        refine Nat.le_trans (Nat.mul_le_mul_right _ ?_) hdiv
        omega
      omega

/-- The number that a finite magnitude denotes. -/
def numberOf (m : Nat) : ℚ := units m / (Nat.pow 2 1074 : Nat)

/-- The point halfway between a magnitude and the next one. -/
def halfway (m : Nat) : ℚ := (numberOf m + numberOf (m + 1)) / 2

theorem numberOf_strictMono : StrictMono numberOf := by
  intro k m h
  unfold numberOf
  generalize 1074 = p
  have hpos : (0 : ℚ) < (Nat.pow 2 p : Nat) := Nat.cast_pos.mpr (natPow_two_pos p)
  exact (div_lt_div_iff_of_pos_right hpos).mpr (Nat.cast_lt.mpr (units_strictMono h))

/-- The difference of a quotient and a halfway point, as a multiple of one of whole numbers. -/
theorem exists_mul_eq_div_sub_halfway (n : Nat) {d : Nat} (hd : 0 < d) (k : Nat) :
    ∃ c : ℚ, 0 < c ∧
      (n / d - halfway k) * c = (2 * (n * Nat.pow 2 1074) : Nat) - (d * turn k : Nat) := by
  rw [halfway, numberOf, numberOf, turn]
  generalize 1074 = p
  have hpos := natPow_two_pos p
  generalize Nat.pow 2 p = u at hpos ⊢
  have hdq : (0 : ℚ) < d := Nat.cast_pos.mpr hd
  have huq : (0 : ℚ) < u := Nat.cast_pos.mpr hpos
  refine ⟨2 * d * u, by positivity, ?_⟩
  push_cast
  field_simp

theorem halfway_lt_div_iff {n d k : Nat} (hd : 0 < d) :
    halfway k < (n : ℚ) / d ↔ d * turn k < 2 * (n * Nat.pow 2 1074) := by
  obtain ⟨c, hc, heq⟩ := exists_mul_eq_div_sub_halfway n hd k
  rw [← sub_pos, ← mul_pos_iff_of_pos_right hc, heq, sub_pos, Nat.cast_lt]

theorem halfway_eq_div_iff {n d k : Nat} (hd : 0 < d) :
    halfway k = (n : ℚ) / d ↔ d * turn k = 2 * (n * Nat.pow 2 1074) := by
  obtain ⟨c, hc, heq⟩ := exists_mul_eq_div_sub_halfway n hd k
  rw [eq_comm, ← sub_eq_zero, ← mul_eq_zero_iff_right hc.ne', heq, sub_eq_zero, Nat.cast_inj, eq_comm]

/--
**Rounding turns at the halfway points.** The magnitude nearest to a quotient lies above `k` exactly
if the quotient lies above the point halfway behind `k`, or at this point if `k` is odd.
-/
theorem lt_nearest_iff {n d k : Nat} (hd : 0 < d) (hk : k < infinity) :
    k < nearest n d ↔ halfway k < (n : ℚ) / d ∨ halfway k = (n : ℚ) / d ∧ k % 2 = 1 := by
  rw [halfway_lt_div_iff hd, halfway_eq_div_iff hd]
  obtain ⟨m, hm, habove, hbelow⟩ := nearest_between n hd
  rw [hm]
  generalize 2 * (n * Nat.pow 2 1074) = x at habove hbelow ⊢
  refine ⟨?_, ?_⟩
  · intro hlt
    have hkm : k < m := Nat.lt_of_lt_of_le hlt (Nat.min_le_left _ _)
    obtain ⟨i, rfl⟩ : ∃ i, m = i + 1 := ⟨m - 1, by omega⟩
    rcases Nat.lt_or_ge k i with hki | hik
    · have hturn := Nat.mul_lt_mul_of_pos_left (turn_strictMono hki) hd
      have := hbelow i rfl
      omega
    · obtain rfl : k = i := by omega
      have := hbelow k rfl
      omega
  · intro h
    by_contra hge
    have hmk : m ≤ k := by omega
    rcases Nat.lt_or_ge m k with hlt | hge'
    · have hturn := Nat.mul_lt_mul_of_pos_left (turn_strictMono hlt) hd
      omega
    · obtain rfl : m = k := by omega
      omega

end Binary64

end Lox
