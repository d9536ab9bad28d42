import Lox.Proofs.Halfway
import Mathlib.Algebra.Order.Group.Abs
import Mathlib.Algebra.Order.Ring.Abs

/-!
# The nearest double

What it means that a double is nearest to a rational number, said over the fields of its bit
pattern: no finite double is nearer, of two equally near ones the significand is even, and the
result is infinite from the point on that lies halfway behind the largest double. This describes
one double for each number and sign, and a decimal is rounded to this one. Rounding needs no case of
its own for numbers below the normal ones, nor for those that are lost to zero.
-/

namespace Lox

namespace Binary64

/-! ## What a double denotes -/

/-- A number with a sign in front. -/
def signed (negative : Bool) (q : ℚ) : ℚ := (if negative then -1 else 1) * q

/-- The digits of a double. A normal number has one more than are stored. -/
def significand (x : Binary64) : Nat :=
  if x.magnitude / 2 ^ 52 = 0 then x.magnitude % 2 ^ 52 else 2 ^ 52 + x.magnitude % 2 ^ 52

/-- The power of two of the last digit. -/
def exponent (x : Binary64) : Int := max 1 (x.magnitude / 2 ^ 52 : Nat) - 1075

/-- The number that a finite double denotes. -/
def value (x : Binary64) : ℚ := signed x.negative (x.significand * 2 ^ x.exponent)

/--
The double nearest to a number: the one that the number becomes when it is rounded to nearest, with
ties to even.
-/
structure IsNearest (q : ℚ) (x : Binary64) : Prop where
  /-- It is a number, or infinite. -/
  isNaN : x.isNaN = false
  /-- It has the sign of the number. Zero may become a zero of either sign. -/
  negative_of_pos : 0 < q → x.negative = false
  negative_of_neg : q < 0 → x.negative = true
  /-- It is infinite from halfway behind the largest double on. -/
  isInfinite_iff : x.isInfinite = true ↔ 2 ^ 1024 - 2 ^ 970 ≤ |q|
  /-- No finite double is nearer. -/
  le : x.isFinite = true → ∀ y : Binary64, y.isFinite = true → |q - x.value| ≤ |q - y.value|
  /-- Of two that are equally near it is the one with the even significand. -/
  even : x.isFinite = true → ∀ y : Binary64, y.isFinite = true → y.value ≠ x.value →
    |q - y.value| = |q - x.value| → x.significand % 2 = 0

theorem abs_signed (negative : Bool) (q : ℚ) : |signed negative q| = |q| := by
  rw [signed, abs_mul]
  cases negative <;> simp

theorem signed_sub (negative : Bool) (q r : ℚ) :
    signed negative q - signed negative r = signed negative (q - r) := (mul_sub _ _ _).symm

theorem abs_signed_sub (negative : Bool) (q r : ℚ) :
    |signed negative q - signed negative r| = |q - r| := by
  rw [signed_sub, abs_signed]

theorem significand_mod_two (x : Binary64) : x.significand % 2 = x.magnitude % 2 := by
  unfold significand
  split
  · omega
  · omega

theorem units_eq_significand (x : Binary64) :
    units x.magnitude = x.significand * 2 ^ (x.magnitude / 2 ^ 52 - 1) := by
  simp only [units, significand, Nat.pow_eq]
  by_cases h : x.magnitude < 2 ^ 52
  · have hdiv : x.magnitude / 2 ^ 52 = 0 := by omega
    have hmod : x.magnitude % 2 ^ 52 = x.magnitude := by omega
    rw [if_pos h, hdiv, if_pos rfl, hmod, Nat.zero_sub, Nat.pow_zero, Nat.mul_one]
  · have hdiv : x.magnitude / 2 ^ 52 ≠ 0 := by omega
    rw [if_neg h, if_neg hdiv]

/-- In units of the least subnormal number, a double is a whole number with a sign. -/
theorem value_eq (x : Binary64) : x.value = signed x.negative (numberOf x.magnitude) := by
  have hexp : x.exponent = ((x.magnitude / 2 ^ 52 - 1 : Nat) : Int) - (1074 : Nat) := by
    unfold exponent
    omega
  rw [value, numberOf, units_eq_significand, hexp]
  generalize (1074 : Nat) = p
  rw [zpow_sub₀ (by norm_num), zpow_natCast, zpow_natCast, Nat.pow_eq]
  push_cast
  rw [mul_div_assoc]

theorem numberOf_zero : numberOf 0 = 0 := by
  have hzero : units 0 = 0 := by decide
  rw [numberOf, hzero, Nat.cast_zero, zero_div]

theorem numberOf_nonneg (m : Nat) : 0 ≤ numberOf m :=
  div_nonneg (Nat.cast_nonneg _) (Nat.cast_nonneg _)

theorem abs_value (x : Binary64) : |x.value| = numberOf x.magnitude := by
  rw [value_eq, abs_signed, abs_of_nonneg (numberOf_nonneg _)]

/-! ## Distances and midpoints -/

section

variable {q a b : ℚ}

/-- The smaller of two numbers is at least as near as the larger one up to the middle. -/
theorem abs_sub_le_abs_sub_right (h : a < b) : |q - a| ≤ |q - b| ↔ 2 * q ≤ a + b := by
  have hsq : (q - b) ^ 2 - (q - a) ^ 2 = (b - a) * (a + b - 2 * q) := by ring
  rw [← sq_le_sq, ← sub_nonneg, hsq, mul_nonneg_iff_of_pos_left (sub_pos.mpr h), sub_nonneg]

theorem abs_sub_le_abs_sub_left (h : a < b) : |q - b| ≤ |q - a| ↔ a + b ≤ 2 * q := by
  have hsq : (q - a) ^ 2 - (q - b) ^ 2 = (b - a) * (2 * q - (a + b)) := by ring
  rw [← sq_le_sq, ← sub_nonneg, hsq, mul_nonneg_iff_of_pos_left (sub_pos.mpr h), sub_nonneg]

end

/-! ## The magnitude of a decimal -/

/-- Which side of a halfway point a decimal is rounded to. -/
theorem lt_magnitudeOf_iff {d : Decimal} {k : Nat} (hk : k < infinity) :
    k < magnitudeOf d ↔ halfway k < d.value ∨ halfway k = d.value ∧ k % 2 = 1 := by
  obtain ⟨n, m, hm, hvalue⟩ := d.exists_value_eq
  rw [magnitudeOf_eq hm hvalue, lt_nearest_iff hm hk, hvalue]

theorem two_mul_halfway (k : Nat) : 2 * halfway k = numberOf k + numberOf (k + 1) := by
  rw [halfway]
  ring

/-- Behind a smaller magnitude a decimal has passed the halfway point below its own. -/
theorem le_two_mul_value {d : Decimal} {k : Nat} (hk : k < magnitudeOf d) :
    numberOf k + numberOf (magnitudeOf d) ≤ 2 * d.value ∧
      (numberOf k + numberOf (magnitudeOf d) = 2 * d.value → magnitudeOf d % 2 = 0) := by
  obtain ⟨i, hi⟩ : ∃ i, magnitudeOf d = i + 1 := ⟨magnitudeOf d - 1, by omega⟩
  have hle := magnitudeOf_le d
  have hturn := (lt_magnitudeOf_iff (by omega)).mp (show i < magnitudeOf d by omega)
  have hmid := two_mul_halfway i
  have hmono : numberOf k ≤ numberOf i := numberOf_strictMono.monotone (by omega)
  rw [hi]
  refine ⟨?_, fun heq => ?_⟩
  · rcases hturn with h | ⟨h, -⟩
    · linarith
    · linarith
  · rcases hturn with h | ⟨-, hodd⟩
    · linarith
    · omega

/-- Before a larger magnitude a decimal has not passed the halfway point above its own. -/
theorem two_mul_value_le {d : Decimal} {k : Nat} (hk : magnitudeOf d < k)
    (hfinite : magnitudeOf d < infinity) :
    2 * d.value ≤ numberOf (magnitudeOf d) + numberOf k ∧
      (2 * d.value = numberOf (magnitudeOf d) + numberOf k → magnitudeOf d % 2 = 0) := by
  have hturn := (lt_magnitudeOf_iff hfinite).not.mp (Nat.lt_irrefl _)
  have hmid := two_mul_halfway (magnitudeOf d)
  have hmono : numberOf (magnitudeOf d + 1) ≤ numberOf k := numberOf_strictMono.monotone hk
  rw [not_or, not_lt] at hturn
  obtain ⟨hle, heven⟩ := hturn
  refine ⟨by linarith, fun heq => ?_⟩
  by_contra hodd
  exact heven ⟨by linarith, by omega⟩

/-- No finite magnitude is nearer to a decimal than its own. -/
theorem abs_sub_magnitudeOf_le {d : Decimal} (hfinite : magnitudeOf d < infinity) (k : Nat) :
    |d.value - numberOf (magnitudeOf d)| ≤ |d.value - numberOf k| := by
  rcases Nat.lt_trichotomy k (magnitudeOf d) with hlt | heq | hgt
  · rw [abs_sub_le_abs_sub_left (numberOf_strictMono hlt)]
    exact (le_two_mul_value hlt).1
  · rw [heq]
  · rw [abs_sub_le_abs_sub_right (numberOf_strictMono hgt)]
    exact (two_mul_value_le hgt hfinite).1

/-- If another magnitude is equally near, then a decimal has an even one. -/
theorem magnitudeOf_even {d : Decimal} (hfinite : magnitudeOf d < infinity) {k : Nat}
    (hk : k ≠ magnitudeOf d)
    (heq : |d.value - numberOf k| = |d.value - numberOf (magnitudeOf d)|) :
    magnitudeOf d % 2 = 0 := by
  rcases Nat.lt_or_gt_of_ne hk with hlt | hgt
  · obtain ⟨hle, heven⟩ := le_two_mul_value hlt
    have hge := (abs_sub_le_abs_sub_right (numberOf_strictMono hlt)).mp heq.le
    exact heven (le_antisymm hle hge)
  · obtain ⟨hle, heven⟩ := two_mul_value_le hgt hfinite
    have hge := (abs_sub_le_abs_sub_left (numberOf_strictMono hgt)).mp heq.le
    exact heven (le_antisymm hle hge)

/-- Where the number of units is a significand of 53 bits, the shift and the units cancel out. -/
theorem numberOf_add {s j i : Nat} (hs : s ≤ 2 ^ 53) (hs' : 2 ^ 52 ≤ s) (hj : j = 1074 + i) :
    numberOf (j * 2 ^ 52 + s) = s * 2 ^ i := by
  rw [numberOf, units_add hs (.inr hs'), hj]
  generalize 1074 = p
  have hpow : (2 : ℚ) ^ p ≠ 0 := pow_ne_zero _ (by norm_num)
  rw [Nat.pow_eq]
  push_cast
  rw [pow_add, mul_comm ((2 : ℚ) ^ p), ← mul_assoc, mul_div_cancel_right₀ _ hpow]

/-- The point halfway behind the largest double. -/
theorem halfway_largest : halfway (infinity - 1) = 2 ^ 1024 - 2 ^ 970 := by
  have hlargest : infinity - 1 = 2045 * 2 ^ 52 + (2 ^ 53 - 1) := by decide
  have hnext : infinity - 1 + 1 = 2046 * 2 ^ 52 + 2 ^ 52 := by decide
  have hi : 971 = 970 + 1 := rfl
  have hi' : 972 = 970 + 2 := rfl
  have htop : 1024 = 970 + 54 := rfl
  rw [halfway, hnext, hlargest, numberOf_add (by decide) (by decide) (show 2045 = 1074 + 971 by rfl),
    numberOf_add (by decide) (by decide) (show 2046 = 1074 + 972 by rfl), hi, hi', htop]
  generalize 970 = k
  norm_num [pow_add]
  ring

/-- A decimal is infinite from halfway behind the largest double on. -/
theorem magnitudeOf_eq_infinity_iff {d : Decimal} :
    magnitudeOf d = infinity ↔ 2 ^ 1024 - 2 ^ 970 ≤ d.value := by
  have hle := magnitudeOf_le d
  have hlargest : infinity - 1 < infinity ∧ (infinity - 1) % 2 = 1 := by decide
  have hlast : magnitudeOf d = infinity ↔ infinity - 1 < magnitudeOf d := by omega
  rw [hlast, lt_magnitudeOf_iff hlargest.1, halfway_largest, and_iff_left hlargest.2,
    ← le_iff_lt_or_eq]

/-- A decimal is lost to zero up to half of the least double. -/
theorem magnitudeOf_eq_zero_iff {d : Decimal} : magnitudeOf d = 0 ↔ d.value ≤ halfway 0 := by
  have hturn : 0 < magnitudeOf d ↔ halfway 0 < d.value ∨ halfway 0 = d.value ∧ 0 % 2 = 1 :=
    lt_magnitudeOf_iff (by decide)
  have hne : ¬ magnitudeOf d = 0 ↔ 0 < magnitudeOf d := Nat.pos_iff_ne_zero.symm
  rw [← not_iff_not, hne, hturn, not_le]
  simp

theorem halfway_zero : halfway 0 = 1 / 2 ^ 1075 := by
  have hsucc : 1075 = 1074 + 1 := rfl
  have hone : units 1 = 1 := by decide
  rw [halfway, numberOf_zero, numberOf, zero_add, hone, hsucc]
  generalize 1074 = p
  rw [Nat.pow_eq, pow_succ]
  push_cast
  field_simp

/-! ## Signed decimals -/

theorem value_nonneg (d : Decimal) : 0 ≤ d.value :=
  mul_nonneg (Nat.cast_nonneg _) (zpow_nonneg (by norm_num) _)

@[simp] theorem magnitude_ofDecimal (negative : Bool) (d : Decimal) :
    (ofDecimal negative d).magnitude = magnitudeOf d := rfl

theorem isFinite_ofDecimal_iff {negative : Bool} {d : Decimal} :
    (ofDecimal negative d).isFinite = true ↔ magnitudeOf d < infinity := decide_eq_true_iff

theorem value_ofDecimal (negative : Bool) (d : Decimal) :
    (ofDecimal negative d).value = signed negative (numberOf (magnitudeOf d)) := value_eq _

/-- With other signs two numbers are not nearer to each other. -/
theorem abs_sub_numberOf_le (negative : Bool) (d : Decimal) (y : Binary64) :
    |d.value - numberOf y.magnitude| ≤ |signed negative d.value - y.value| := by
  have h := abs_abs_sub_abs_le (signed negative d.value) y.value
  rwa [abs_signed, abs_value, abs_of_nonneg (value_nonneg d)] at h

/-- What a decimal is rounded to is nearer to it than the negation of that, unless it is zero. -/
theorem magnitudeOf_eq_zero_of_negated {negative : Bool} {d : Decimal}
    (h : |signed negative d.value - -signed negative (numberOf (magnitudeOf d))| =
      |d.value - numberOf (magnitudeOf d)|) : magnitudeOf d = 0 := by
  by_contra hne
  have hm : 0 < numberOf (magnitudeOf d) := by
    rw [← numberOf_zero]
    exact numberOf_strictMono (Nat.pos_of_ne_zero hne)
  have hd : 0 < d.value := by
    by_contra hsmall
    have hhalf : 0 < halfway 0 := by rw [halfway_zero]; positivity
    exact hne (magnitudeOf_eq_zero_iff.mpr ((not_lt.mp hsmall).trans hhalf.le))
  have hsum : signed negative d.value - -signed negative (numberOf (magnitudeOf d)) =
      signed negative (d.value + numberOf (magnitudeOf d)) := by
    unfold signed
    ring
  have hlt : |d.value - numberOf (magnitudeOf d)| < d.value + numberOf (magnitudeOf d) :=
    abs_lt.mpr ⟨by linarith, by linarith⟩
  rw [hsum, abs_signed, abs_of_pos (add_pos hd hm)] at h
  exact absurd h hlt.ne'

/-- **A decimal is rounded to the nearest double.** -/
theorem isNearest_ofDecimal (negative : Bool) (d : Decimal) :
    IsNearest (signed negative d.value) (ofDecimal negative d) := by
  have hnonneg := value_nonneg d
  have hle := magnitudeOf_le d
  refine ⟨?_, ?_, ?_, ?_, ?_, ?_⟩
  · exact decide_eq_false (Nat.not_lt.mpr hle)
  · intro hpos
    cases negative with
    | false => rfl
    | true =>
      rw [signed, if_pos rfl] at hpos
      linarith
  · intro hneg
    cases negative with
    | true => rfl
    | false =>
      rw [signed, if_neg (by simp)] at hneg
      linarith
  · rw [abs_signed, abs_of_nonneg hnonneg, ← magnitudeOf_eq_infinity_iff]
    exact decide_eq_true_iff
  · intro hx y _
    have hfinite : magnitudeOf d < infinity := of_decide_eq_true hx
    rw [value_ofDecimal, abs_signed_sub]
    exact (abs_sub_magnitudeOf_le hfinite _).trans (abs_sub_numberOf_le negative d y)
  · intro hx y _ hne heq
    have hfinite : magnitudeOf d < infinity := of_decide_eq_true hx
    rw [value_ofDecimal] at hne heq
    rw [abs_signed_sub] at heq
    rw [significand_mod_two]
    show magnitudeOf d % 2 = 0
    by_cases hmag : y.magnitude = magnitudeOf d
    · -- only the negated number is left
      have habs : |y.value| = |signed negative (numberOf (magnitudeOf d))| := by
        rw [abs_value, hmag, abs_signed, abs_of_nonneg (numberOf_nonneg _)]
      rcases abs_eq_abs.mp habs with h | h
      · exact absurd h hne
      · rw [h] at heq
        rw [magnitudeOf_eq_zero_of_negated heq]
    · refine magnitudeOf_even hfinite hmag (le_antisymm ?_ (abs_sub_magnitudeOf_le hfinite _))
      exact (abs_sub_numberOf_le negative d y).trans heq.le

/-! ## There is one nearest double -/

/-- A number stripped of a sign that it shares with a double. -/
theorem abs_sub_value (q : ℚ) (x : Binary64) :
    |q - x.value| = |signed x.negative q - numberOf x.magnitude| := by
  have hq : q = signed x.negative (signed x.negative q) := by
    unfold signed
    cases x.negative <;> simp
  conv_lhs => rw [hq, value_eq]
  exact abs_signed_sub _ _ _

/-- Of two nearest doubles with one sign none is smaller: an odd one between them would be nearer. -/
theorem IsNearest.magnitude_le {q : ℚ} {x y : Binary64} (hx : IsNearest q x) (hy : IsNearest q y)
    (hsign : x.negative = y.negative) (hfx : x.isFinite = true) (hfy : y.isFinite = true) :
    y.magnitude ≤ x.magnitude := by
  by_contra hlt
  rw [not_le] at hlt
  have hlx : x.magnitude < infinity := of_decide_eq_true hfx
  have hly : y.magnitude < infinity := of_decide_eq_true hfy
  have heq : |q - x.value| = |q - y.value| := le_antisymm (hx.le hfx y hfy) (hy.le hfy x hfx)
  have hne : x.value ≠ y.value := by
    intro h
    have habs := congrArg abs h
    rw [abs_value, abs_value] at habs
    exact hlt.ne (numberOf_strictMono.injective habs)
  have hevenx := hx.even hfx y hfy hne.symm heq.symm
  have heveny := hy.even hfy x hfx hne heq
  rw [significand_mod_two] at hevenx heveny
  -- both are even, so there is room for a double between them
  let z : Binary64 := ⟨x.negative, x.magnitude + 1, by have := y.magnitude_lt; omega⟩
  have hz : z.isFinite = true := decide_eq_true (show x.magnitude + 1 < infinity by omega)
  have hxz := hx.le hfx z hz
  rw [abs_sub_value, abs_sub_value q y, ← hsign] at heq
  rw [abs_sub_value, abs_sub_value q z] at hxz
  have hmid := (abs_sub_le_abs_sub_left (numberOf_strictMono hlt)).mp heq.ge
  have hmid' := (abs_sub_le_abs_sub_right (numberOf_strictMono (Nat.lt_succ_self _))).mp hxz
  have hroom : numberOf (x.magnitude + 1) < numberOf y.magnitude := numberOf_strictMono (by omega)
  linarith

/-- **For each number and sign one double is nearest.** -/
theorem IsNearest.unique {q : ℚ} {x y : Binary64} (hx : IsNearest q x) (hy : IsNearest q y)
    (hsign : x.negative = y.negative) : x = y := by
  have hnx : ¬ infinity < x.magnitude := of_decide_eq_false hx.isNaN
  have hny : ¬ infinity < y.magnitude := of_decide_eq_false hy.isNaN
  ext1
  · exact hsign
  · by_cases hinf : 2 ^ 1024 - 2 ^ 970 ≤ |q|
    · have hix : x.magnitude = infinity := of_decide_eq_true (hx.isInfinite_iff.mpr hinf)
      have hiy : y.magnitude = infinity := of_decide_eq_true (hy.isInfinite_iff.mpr hinf)
      rw [hix, hiy]
    · have hix : ¬ x.magnitude = infinity := fun h =>
        hinf (hx.isInfinite_iff.mp (decide_eq_true h))
      have hiy : ¬ y.magnitude = infinity := fun h =>
        hinf (hy.isInfinite_iff.mp (decide_eq_true h))
      have hfx : x.isFinite = true := decide_eq_true (by omega)
      have hfy : y.isFinite = true := decide_eq_true (by omega)
      exact Nat.le_antisymm (hy.magnitude_le hx hsign.symm hfy hfx)
        (hx.magnitude_le hy hsign hfx hfy)

end Binary64

end Lox
