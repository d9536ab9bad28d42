import Lox.Binary64.Shortest
import Mathlib.Algebra.Order.Field.Power
import Mathlib.Algebra.Order.Field.Rat
import Mathlib.Data.Nat.Cast.Order.Field
import Mathlib.Tactic.FieldSimp
import Mathlib.Tactic.Positivity

/-!
# Rounding depends on the value alone

A decimal is rounded from its digits and its power of ten, along one of several paths. The result
is the double nearest to the rational number that the decimal denotes, and no more of the decimal
enters into it: `Binary64.magnitudeOf_congr`. A number of units is nearest to itself, so no finite
double is lost by rounding.

The least subnormal number is `2 ^ -1074`. Proofs that do not depend on that exponent replace it by
a variable first, so that no power of that size is ever computed.
-/

namespace Lox

/-! ## Rounding a quotient -/

theorem roundHalfEven_mul_right (n d : Nat) {k : Nat} (hk : 0 < k) :
    roundHalfEven (n * k) (d * k) = roundHalfEven n d := by
  have hlt : ∀ a b : Nat, a * k < b * k ↔ a < b := fun a b => Nat.mul_lt_mul_right hk
  simp only [roundHalfEven, Nat.mul_div_mul_right n d hk, Nat.mul_mod_mul_right, ← Nat.mul_assoc,
    hlt]

theorem roundHalfEven_mul_self (n : Nat) {d : Nat} (hd : 0 < d) : roundHalfEven (n * d) d = n := by
  rw [roundHalfEven]
  simp only [Nat.mul_div_cancel n hd, Nat.mul_mod_left, Nat.mul_zero]
  exact if_pos hd

theorem roundHalfEven_of_two_mul_lt {n d : Nat} (h : 2 * n < d) : roundHalfEven n d = 0 := by
  have hn : n < d := by omega
  simp only [roundHalfEven, Nat.div_eq_of_lt hn, Nat.mod_eq_of_lt hn]
  exact if_pos h

namespace Binary64

theorem nearest_mul_right (n d : Nat) {k : Nat} (hk : 0 < k) :
    nearest (n * k) (d * k) = nearest n d := by
  have hscaled : n * k * Nat.pow 2 1074 = n * Nat.pow 2 1074 * k := Nat.mul_right_comm _ _ _
  have hround : ∀ j, roundHalfEven (n * Nat.pow 2 1074 * k) (d * k * j) =
      roundHalfEven (n * Nat.pow 2 1074) (d * j) := fun j => by
    rw [Nat.mul_right_comm d k j, roundHalfEven_mul_right _ _ hk]
  simp only [nearest, hscaled, Nat.mul_div_mul_right _ d hk, hround]

theorem nearest_zero {d : Nat} (hd : 0 < d) : nearest 0 d = 0 := by
  have hz : roundHalfEven 0 (d * Nat.pow 2 0) = 0 := by
    apply roundHalfEven_of_two_mul_lt
    simpa using hd
  simp only [nearest, Nat.zero_mul, Nat.zero_div, Nat.log2_zero, Nat.zero_sub, hz, Nat.zero_add]
  exact Nat.zero_min _

/-- The length of a number whose digits are `2 ^ 52 + f`, shifted by `j`. -/
theorem log2_shifted {f : Nat} (hf : f < Nat.pow 2 52) (j : Nat) :
    ((Nat.pow 2 52 + f) * Nat.pow 2 j).log2 = 52 + j := by
  have hpow : 0 < 2 ^ j := Nat.two_pow_pos j
  simp only [Nat.pow_eq] at hf ⊢
  have hne : (2 ^ 52 + f) * 2 ^ j ≠ 0 := Nat.mul_ne_zero (by omega) hpow.ne'
  refine (Nat.log2_eq_iff hne).mpr ⟨?_, ?_⟩
  · rw [Nat.pow_add]
    exact Nat.mul_le_mul_right _ (Nat.le_add_right _ _)
  · rw [Nat.add_right_comm, Nat.pow_add]
    refine Nat.mul_lt_mul_of_pos_right ?_ hpow
    omega

theorem natPow_two_pos (k : Nat) : 0 < Nat.pow 2 k := Nat.two_pow_pos k

/-- A finite magnitude is nearest to the number that it denotes. -/
theorem nearest_units {m : Nat} (h : m < infinity) : nearest (units m) (Nat.pow 2 1074) = m := by
  have hmin : min m infinity = m := Nat.min_eq_left (Nat.le_of_lt h)
  rw [nearest]
  generalize 1074 = p
  have hpos := natPow_two_pos
  simp only [Nat.mul_div_cancel _ (hpos p)]
  by_cases hm : m < Nat.pow 2 52
  · have hlog : m.log2 - 52 = 0 := by
      by_cases hz : m = 0
      · subst hz; rfl
      · have := (Nat.log2_lt hz).mpr hm
        omega
    have hone : Nat.pow 2 0 = 1 := rfl
    rw [units, if_pos hm, hlog, hone, Nat.mul_one, roundHalfEven_mul_self _ (hpos p), Nat.zero_mul,
      Nat.zero_add, hmin]
  · have hlog := log2_shifted (Nat.mod_lt m (hpos 52)) (m / Nat.pow 2 52 - 1)
    have hround : ∀ j, roundHalfEven ((Nat.pow 2 52 + m % Nat.pow 2 52) * Nat.pow 2 j *
        Nat.pow 2 p) (Nat.pow 2 p * Nat.pow 2 j) = Nat.pow 2 52 + m % Nat.pow 2 52 := by
      intro j
      rw [Nat.mul_assoc, Nat.mul_comm (Nat.pow 2 j)]
      exact roundHalfEven_mul_self _ (Nat.mul_pos (hpos p) (hpos j))
    have hsum : (m / Nat.pow 2 52 - 1) * Nat.pow 2 52 + (Nat.pow 2 52 + m % Nat.pow 2 52) = m := by
      simp only [Nat.pow_eq] at hm ⊢
      omega
    rw [units, if_neg hm, hlog, Nat.add_sub_cancel_left, hround, hsum, hmin]

/-- A multiple of `10 ^ 401` is beyond the range. -/
theorem nearest_of_large {n k : Nat} (hn : 0 < n) (hk : 400 < k) :
    nearest (n * Nat.pow 10 k) 1 = infinity := by
  rw [nearest]
  generalize hp : (1074 : Nat) = p
  have hle : 2 ^ (3 * k + p) ≤ n * Nat.pow 10 k * Nat.pow 2 p := by
    have hten : 2 ^ (3 * k) ≤ 10 ^ k := by
      rw [Nat.pow_mul]
      exact Nat.pow_le_pow_left (by decide) k
    rw [Nat.pow_add]
    exact Nat.mul_le_mul_right _ (Nat.le_trans hten (Nat.le_mul_of_pos_left _ hn))
  have hlog : 3 * k + p ≤ (n * Nat.pow 10 k * Nat.pow 2 p / 1).log2 := by
    rw [Nat.div_one]
    exact (Nat.le_log2 (Nat.pos_iff_ne_zero.mp (Nat.lt_of_lt_of_le (Nat.two_pow_pos _) hle))).mpr hle
  refine Nat.min_eq_right (Nat.le_trans ?_ (Nat.le_add_right _ _))
  exact Nat.mul_le_mul_right _ (by omega)

/-- Below `2 ^ -1099` there is nothing that is nearer than zero. -/
theorem nearest_of_small {n k : Nat} (hk : n.log2 + 1100 < 3 * k) :
    nearest n (Nat.pow 10 k) = 0 := by
  rw [nearest]
  generalize hp : (1074 : Nat) = p
  have hlt : 2 * (n * Nat.pow 2 p) < Nat.pow 10 k := by
    have hten : 2 ^ (3 * k) ≤ Nat.pow 10 k := by
      rw [Nat.pow_mul]
      exact Nat.pow_le_pow_left (by decide) k
    calc 2 * (n * 2 ^ p) = n * 2 ^ (p + 1) := by rw [Nat.pow_succ]; ac_rfl
      _ < 2 ^ (n.log2 + 1) * 2 ^ (p + 1) :=
        Nat.mul_lt_mul_of_pos_right Nat.lt_log2_self (Nat.two_pow_pos _)
      _ = 2 ^ (n.log2 + 1 + (p + 1)) := (Nat.pow_add _ _ _).symm
      _ ≤ 2 ^ (3 * k) := Nat.pow_le_pow_right (by decide) (by omega)
      _ ≤ Nat.pow 10 k := hten
  have hzero : n * Nat.pow 2 p / Nat.pow 10 k = 0 := Nat.div_eq_of_lt (by omega)
  have hone : Nat.pow 2 0 = 1 := rfl
  simp only [hzero, Nat.log2_zero, Nat.zero_sub, Nat.zero_mul, Nat.zero_add, hone, Nat.mul_one,
    roundHalfEven_of_two_mul_lt hlt]
  exact Nat.zero_min _

/-- Rounding depends on the quotient alone. -/
theorem nearest_congr {n d n' d' : Nat} (hd : 0 < d) (hd' : 0 < d')
    (h : (n : ℚ) / d = n' / d') : nearest n d = nearest n' d' := by
  have hcross : n * d' = n' * d := by
    have hq : (d : ℚ) ≠ 0 := Nat.cast_ne_zero.mpr hd.ne'
    have hq' : (d' : ℚ) ≠ 0 := Nat.cast_ne_zero.mpr hd'.ne'
    rw [div_eq_div_iff hq hq'] at h
    exact_mod_cast h
  rw [← nearest_mul_right n d hd', hcross, Nat.mul_comm d d', nearest_mul_right n' d' hd]

end Binary64

/-! ## Rounding a decimal -/

/-- The number that a decimal denotes. -/
def Decimal.value (d : Decimal) : ℚ := d.coefficient * (10 : ℚ) ^ d.exponent

theorem Decimal.value_ofNat (c k : Nat) :
    value ⟨c, .ofNat k⟩ = (c * Nat.pow 10 k : Nat) / (1 : Nat) := by
  simp [value]

theorem Decimal.value_negSucc (c k : Nat) :
    value ⟨c, .negSucc k⟩ = (c : Nat) / (Nat.pow 10 (k + 1) : Nat) := by
  rw [value, zpow_negSucc, Nat.pow_eq, Nat.cast_pow]
  rfl

theorem Decimal.exists_value_eq (d : Decimal) : ∃ n m : Nat, 0 < m ∧ d.value = n / m := by
  obtain ⟨c, e⟩ := d
  cases e with
  | ofNat k => exact ⟨_, _, Nat.one_pos, value_ofNat c k⟩
  | negSucc k => exact ⟨_, _, Nat.pow_pos (by decide), value_negSucc c k⟩

namespace Binary64

/-- The magnitude of a decimal is the one nearest to its value, however it is written. -/
theorem magnitudeOf_eq {d : Decimal} {n m : Nat} (hm : 0 < m) (h : d.value = n / m) :
    magnitudeOf d = nearest n m := by
  obtain ⟨c, e⟩ := d
  cases e with
  | ofNat k =>
    rw [Decimal.value_ofNat] at h
    have hc := nearest_congr Nat.one_pos hm h
    rw [magnitudeOf]
    split
    · next hz =>
      have hz : c = 0 := hz
      rw [← hc, hz, Nat.zero_mul, nearest_zero Nat.one_pos]
    · next hz =>
      have hpos : 0 < c := Nat.pos_of_ne_zero hz
      rw [← hc]
      dsimp only
      split
      · next hk => exact (nearest_of_large hpos hk).symm
      · rfl
  | negSucc k =>
    have hpow : 0 < Nat.pow 10 (k + 1) := Nat.pow_pos (by decide)
    rw [Decimal.value_negSucc] at h
    have hc := nearest_congr hpow hm h
    rw [magnitudeOf]
    split
    · next hz =>
      have hz : c = 0 := hz
      rw [← hc, hz, nearest_zero hpow]
    · rw [← hc]
      dsimp only
      split
      · next hk => exact (nearest_of_small hk).symm
      · rfl

/-- Decimals of one value have one nearest double. -/
theorem magnitudeOf_congr {d d' : Decimal} (h : d.value = d'.value) :
    magnitudeOf d = magnitudeOf d' := by
  obtain ⟨n, m, hm, hvalue⟩ := d'.exists_value_eq
  rw [magnitudeOf_eq hm (h.trans hvalue), magnitudeOf_eq hm hvalue]

end Binary64

end Lox
