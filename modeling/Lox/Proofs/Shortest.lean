import Lox.Proofs.Decimals
import Lox.Proofs.Nearest
import Mathlib.Algebra.Order.Group.Pointwise.Interval
import Mathlib.Data.Nat.Prime.Basic
import Mathlib.Tactic.Linarith

/-!
# The shortest decimal

The decimal that is written for a finite double is rounded to this double. No decimal with fewer
digits is, and of those with as many digits none is nearer to the double.

Rounding keeps the order, so with a decimal everything between it and the double is rounded to the
double as well. A decimal of few digits is a multiple of a power of ten, or else it lies so low that
a multiple stands between it and the double. So if there is a decimal of so many digits, then there
is one on the grid of these multiples, and then one of the two neighbours of the double on this grid
will do. The grid of 17 digits is fine enough for the nearer neighbour, so the search always ends
there.
-/

namespace Lox

namespace Binary64

/-! ## Rounding keeps the order -/

theorem magnitudeOf_mono {d d' : Decimal} (h : d.value ≤ d'.value) :
    magnitudeOf d ≤ magnitudeOf d' := by
  by_contra hlt
  rw [not_le] at hlt
  have hk := lt_of_lt_of_le hlt (magnitudeOf_le d)
  refine Nat.lt_irrefl _ ((lt_magnitudeOf_iff hk).mpr ?_)
  rcases (lt_magnitudeOf_iff hk).mp hlt with hturn | ⟨hturn, hodd⟩
  · exact .inl (lt_of_lt_of_le hturn h)
  · rw [hturn]
    rcases h.lt_or_eq with hlt' | heq
    · exact .inl hlt'
    · exact .inr ⟨heq, hodd⟩

/-- A binary fraction is a decimal one. -/
theorem value_mul_pow_five (c p : Nat) :
    Decimal.value ⟨c * Nat.pow 5 p, -(p : Int)⟩ = (c : ℚ) / (Nat.pow 2 p : Nat) := by
  have htwo : ((2 : ℚ) ^ p) ≠ 0 := pow_ne_zero _ (by norm_num)
  have hten : (10 : ℚ) ^ p = 2 ^ p * 5 ^ p := by rw [← mul_pow]; norm_num
  rw [Decimal.value, zpow_neg, zpow_natCast, hten, Nat.pow_eq, Nat.pow_eq]
  push_cast
  field_simp

/-- The exact expansion denotes the double, and it is rounded to it. -/
theorem expansion_spec {m : Nat} (h : m < infinity) :
    (expansion m).value = numberOf m ∧ magnitudeOf (expansion m) = m := by
  have hnearest := nearest_units h
  rw [expansion, numberOf]
  generalize hp : (1074 : Nat) = p at hnearest ⊢
  have hneg : (-1074 : Int) = -(p : Int) := by omega
  have hvalue := value_mul_pow_five (units m) p
  rw [hneg]
  exact ⟨hvalue, (magnitudeOf_eq (natPow_two_pos p) hvalue).trans hnearest⟩

/-- What lies between a double and a decimal that is rounded to it is rounded to it as well. -/
theorem magnitudeOf_of_mem_uIcc {m : Nat} {d p : Decimal} (h : m < infinity)
    (hd : magnitudeOf d = m) (hp : p.value ∈ Set.uIcc (numberOf m) d.value) :
    magnitudeOf p = m := by
  obtain ⟨hvalue, hm⟩ := expansion_spec h
  rw [← hvalue] at hp
  rcases Set.mem_uIcc.mp hp with ⟨hlow, hhigh⟩ | ⟨hlow, hhigh⟩
  · exact Nat.le_antisymm ((magnitudeOf_mono hhigh).trans hd.le) (hm.ge.trans (magnitudeOf_mono hlow))
  · exact Nat.le_antisymm ((magnitudeOf_mono hhigh).trans hm.le) (hd.ge.trans (magnitudeOf_mono hlow))

/-- A decimal is rounded to each double that is much nearer to it than to zero. -/
theorem magnitudeOf_of_near {m : Nat} {d : Decimal} (h : m < infinity)
    (hnear : |d.value - numberOf m| * 2 ^ 54 < numberOf m) : magnitudeOf d = m := by
  obtain ⟨hlow, hhigh⟩ := abs_le.mp (le_refl |d.value - numberOf m|)
  have hhalf : ∀ k, m ≤ k + 1 → numberOf m ≤ (numberOf (k + 1) - numberOf k) * 2 ^ 53 := by
    intro k hk
    have hle : units m ≤ 2 ^ 53 * gap k := (units_strictMono.monotone hk).trans (units_succ_le k)
    have hgap : numberOf (k + 1) - numberOf k = gap k / (Nat.pow 2 1074 : Nat) := by
      rw [numberOf, numberOf, units_succ, ← sub_div, Nat.cast_add, add_sub_cancel_left]
    rw [hgap, numberOf, div_mul_eq_mul_div]
    refine div_le_div_of_nonneg_right ?_ (Nat.cast_nonneg _)
    rw [mul_comm]
    exact_mod_cast hle
  refine Nat.le_antisymm ?_ ?_
  · by_contra hlt
    rw [not_le] at hlt
    have hup := hhalf m (Nat.le_succ m)
    have hmid := two_mul_halfway m
    have hreach : halfway m ≤ d.value := by
      rcases (lt_magnitudeOf_iff h).mp hlt with hturn | ⟨hturn, -⟩
      · exact hturn.le
      · exact hturn.le
    linarith
  · cases m with
    | zero => exact Nat.zero_le _
    | succ k =>
      have hdown := hhalf k (Nat.le_refl _)
      have hmid := two_mul_halfway k
      refine (lt_magnitudeOf_iff (Nat.lt_of_succ_lt h)).mpr (.inl ?_)
      linarith

/-! ## Neighbours on a grid -/

/-- The two multiples of a power of ten around a number, the nearer one first. -/
structure Neighbours (x : ℚ) (e : Int) (near far : Decimal) : Prop where
  around : ∃ q : Nat, (q * (10 : ℚ) ^ e ≤ x ∧ x < (q + 1 : Nat) * (10 : ℚ) ^ e) ∧
    (near = ⟨q, e⟩ ∧ far = ⟨q + 1, e⟩ ∨ near = ⟨q + 1, e⟩ ∧ far = ⟨q, e⟩)
  le : |near.value - x| ≤ |far.value - x|

namespace Neighbours

variable {x : ℚ} {e : Int} {near far : Decimal}

/-- One of the neighbours stands between the number and any other multiple. -/
theorem mem_uIcc (h : Neighbours x e near far) (c : Nat) :
    near.value ∈ Set.uIcc x (c * (10 : ℚ) ^ e) ∨ far.value ∈ Set.uIcc x (c * (10 : ℚ) ^ e) := by
  obtain ⟨q, ⟨hlow, hhigh⟩, hcases⟩ := h.around
  have hpos : (0 : ℚ) ≤ 10 ^ e := zpow_nonneg (by norm_num) e
  have hmul : ∀ a b : Nat, a ≤ b → (a : ℚ) * 10 ^ e ≤ b * 10 ^ e := fun a b hab =>
    mul_le_mul_of_nonneg_right (Nat.cast_le.mpr hab) hpos
  rcases Nat.lt_or_ge q c with hlt | hge
  · have habove : (q + 1 : Nat) * (10 : ℚ) ^ e ∈ Set.uIcc x (c * (10 : ℚ) ^ e) :=
      Set.mem_uIcc.mpr (.inl ⟨hhigh.le, hmul _ _ hlt⟩)
    rcases hcases with ⟨rfl, rfl⟩ | ⟨rfl, rfl⟩
    · exact .inr habove
    · exact .inl habove
  · have hbelow : q * (10 : ℚ) ^ e ∈ Set.uIcc x (c * (10 : ℚ) ^ e) :=
      Set.mem_uIcc.mpr (.inr ⟨hmul _ _ hge, hlow⟩)
    rcases hcases with ⟨rfl, rfl⟩ | ⟨rfl, rfl⟩
    · exact .inl hbelow
    · exact .inr hbelow

/-- The nearer neighbour is at most half a step away. -/
theorem two_mul_abs_sub_le (h : Neighbours x e near far) : 2 * |near.value - x| ≤ 10 ^ e := by
  obtain ⟨q, ⟨hlow, hhigh⟩, hcases⟩ := h.around
  have hsum : |near.value - x| + |far.value - x| = 10 ^ e := by
    have hbelow : |q * (10 : ℚ) ^ e - x| = x - q * (10 : ℚ) ^ e := by
      rw [abs_of_nonpos (by linarith), neg_sub]
    have habove : |(q + 1 : Nat) * (10 : ℚ) ^ e - x| = (q + 1 : Nat) * (10 : ℚ) ^ e - x :=
      abs_of_nonneg (by linarith)
    rcases hcases with ⟨rfl, rfl⟩ | ⟨rfl, rfl⟩
    · rw [Decimal.value, Decimal.value, hbelow, habove]
      push_cast
      ring
    · rw [Decimal.value, Decimal.value, hbelow, habove]
      push_cast
      ring
  have := h.le
  linarith

/-- Below `10 ^ k` steps the neighbours do not reach beyond `10 ^ k` steps. -/
theorem coefficient_le (h : Neighbours x e near far) {k : Nat}
    (hx : x < (10 : ℚ) ^ k * 10 ^ e) :
    (near.exponent = e ∧ near.coefficient ≤ 10 ^ k) ∧ far.exponent = e ∧ far.coefficient ≤ 10 ^ k := by
  obtain ⟨q, ⟨hlow, -⟩, hcases⟩ := h.around
  have hpos : (0 : ℚ) < 10 ^ e := zpow_pos (by norm_num) e
  have hlt : (q : ℚ) < 10 ^ k := lt_of_mul_lt_mul_right (lt_of_le_of_lt hlow hx) hpos.le
  have hq : q < 10 ^ k := by exact_mod_cast hlt
  rcases hcases with ⟨rfl, rfl⟩ | ⟨rfl, rfl⟩
  · exact ⟨⟨rfl, hq.le⟩, rfl, hq⟩
  · exact ⟨⟨rfl, hq⟩, rfl, hq.le⟩

end Neighbours

theorem overPower_div {n d : Nat} (hd : 0 < d) (e : Int) :
    0 < (overPower n d e).2 ∧
      ((overPower n d e).1 : ℚ) / (overPower n d e).2 * (10 : ℚ) ^ e = n / d := by
  have hten : (10 : ℚ) ≠ 0 := by norm_num
  refine ⟨Nat.mul_pos hd (Nat.pow_pos (by decide)), ?_⟩
  have hsplit : e = (e.toNat : Int) - ((-e).toNat : Int) := by omega
  have hpow : (10 : ℚ) ^ e = 10 ^ e.toNat / 10 ^ (-e).toNat := by
    rw [← zpow_natCast, ← zpow_natCast, ← zpow_sub₀ hten, ← hsplit]
  have hdq : (d : ℚ) ≠ 0 := Nat.cast_ne_zero.mpr hd.ne'
  rw [hpow, overPower, Nat.pow_eq, Nat.pow_eq]
  push_cast
  field_simp

/-- A search on a grid looks at the two neighbours. -/
theorem onGrid?_eq_find? (tie : Tie) (m : Nat) (e : Int) :
    ∃ near far, Neighbours (numberOf m) e near far ∧
      onGrid? tie m e = [near, far].find? fun candidate => magnitudeOf candidate = m := by
  have hdiv := overPower_div (n := units m) (natPow_two_pos 1074) e
  simp only [onGrid?, numberOf]
  generalize (1074 : Nat) = p at hdiv ⊢
  generalize overPower (units m) (Nat.pow 2 p) e = r at hdiv ⊢
  obtain ⟨hr, hvalue⟩ := hdiv
  rw [← hvalue]
  have hpos : (0 : ℚ) < 10 ^ e := zpow_pos (by norm_num) e
  have hrq : (0 : ℚ) < r.2 := Nat.cast_pos.mpr hr
  have hparts : (r.1 : ℚ) = (r.1 / r.2 : Nat) * r.2 + (r.1 % r.2 : Nat) := by
    exact_mod_cast (Nat.div_add_mod' r.1 r.2).symm
  have hlt := Nat.mod_lt r.1 hr
  generalize r.1 / r.2 = q at hparts ⊢
  generalize r.1 % r.2 = t at hparts hlt ⊢
  -- the number stands this part of a step above the lower neighbour
  obtain ⟨f, hf⟩ : ∃ f : ℚ, f = t / r.2 := ⟨_, rfl⟩
  have hf0 : 0 ≤ f := hf ▸ div_nonneg (Nat.cast_nonneg _) hrq.le
  have hf1 : f < 1 := by
    rw [hf, div_lt_one hrq]
    exact_mod_cast hlt
  have hquot : (r.1 : ℚ) / r.2 = q + f := by
    rw [hparts, hf, add_div, mul_div_cancel_right₀ _ hrq.ne']
  have hbelow : |q * (10 : ℚ) ^ e - (q + f) * 10 ^ e| = f * 10 ^ e := by
    rw [← sub_mul, abs_mul, abs_of_pos hpos, sub_add_cancel_left, abs_neg, abs_of_nonneg hf0]
  have habove : |(q + 1 : Nat) * (10 : ℚ) ^ e - (q + f) * 10 ^ e| = (1 - f) * 10 ^ e := by
    rw [← sub_mul, abs_mul, abs_of_pos hpos, Nat.cast_add, Nat.cast_one, add_sub_add_left_eq_sub,
      abs_of_nonneg (by linarith)]
  have haround : q * (10 : ℚ) ^ e ≤ (q + f) * 10 ^ e ∧
      (q + f) * (10 : ℚ) ^ e < (q + 1 : Nat) * 10 ^ e := by
    refine ⟨mul_le_mul_of_nonneg_right (by linarith) hpos.le, mul_lt_mul_of_pos_right ?_ hpos⟩
    push_cast
    linarith
  rw [hquot]
  split
  · next hlow =>
    refine ⟨_, _, ⟨⟨q, haround, .inl ⟨rfl, rfl⟩⟩, ?_⟩, rfl⟩
    have hle : 2 * t ≤ r.2 := by omega
    have hhalf : f * 2 ≤ 1 := by
      rw [hf, div_mul_eq_mul_div, div_le_one hrq, mul_comm]
      exact_mod_cast hle
    rw [Decimal.value, Decimal.value, hbelow, habove]
    exact mul_le_mul_of_nonneg_right (by linarith) hpos.le
  · next hhigh =>
    refine ⟨_, _, ⟨⟨q, haround, .inr ⟨rfl, rfl⟩⟩, ?_⟩, rfl⟩
    have hle : r.2 ≤ 2 * t := by omega
    have hhalf : 1 ≤ f * 2 := by
      rw [hf, div_mul_eq_mul_div, one_le_div hrq, mul_comm]
      exact_mod_cast hle
    rw [Decimal.value, Decimal.value, hbelow, habove]
    exact mul_le_mul_of_nonneg_right (by linarith) hpos.le

variable {tie : Tie} {m : Nat} {e : Int} {d : Decimal}

theorem magnitudeOf_of_onGrid? (h : onGrid? tie m e = some d) : magnitudeOf d = m := by
  simp only [onGrid?] at h
  simpa using List.find?_some h

/-- What is taken on a grid is one of the neighbours, and none on this grid is nearer. -/
theorem onGrid?_eq_some (hm : m < infinity) (h : onGrid? tie m e = some d) :
    (∃ near far, Neighbours (numberOf m) e near far ∧ (d = near ∨ d = far)) ∧
      ∀ c : Nat, magnitudeOf ⟨c, e⟩ = m → |d.value - numberOf m| ≤ |c * (10 : ℚ) ^ e - numberOf m| := by
  obtain ⟨near, far, hn, hfind⟩ := onGrid?_eq_find? tie m e
  have hd := magnitudeOf_of_onGrid? h
  rw [hfind] at h
  have hmem := List.mem_of_find?_eq_some h
  have hmem' : d = near ∨ d = far := by simpa using hmem
  refine ⟨⟨near, far, hn, hmem'⟩, ?_⟩
  intro c hc
  have hbetween : ∀ p : Decimal, p.value ∈ Set.uIcc (numberOf m) (c * (10 : ℚ) ^ e) →
      magnitudeOf p = m ∧ |p.value - numberOf m| ≤ |c * (10 : ℚ) ^ e - numberOf m| := fun p hp =>
    ⟨magnitudeOf_of_mem_uIcc hm hc hp, Set.abs_sub_left_of_mem_uIcc hp⟩
  by_cases hnear : magnitudeOf near = m
  · obtain rfl : near = d := by
      rw [List.find?_cons_of_pos (by simpa using hnear)] at h
      exact Option.some.inj h
    rcases hn.mem_uIcc c with hp | hp
    · exact (hbetween _ hp).2
    · exact hn.le.trans (hbetween _ hp).2
  · rcases hn.mem_uIcc c with hp | hp
    · exact absurd (hbetween _ hp).1 hnear
    · rcases hmem' with rfl | rfl
      · exact absurd hd hnear
      · exact (hbetween _ hp).2

/-- If any multiple is rounded to the double, then one is found. -/
theorem onGrid?_ne_none (hm : m < infinity) {c : Nat} (hc : magnitudeOf ⟨c, e⟩ = m) :
    onGrid? tie m e ≠ none := by
  obtain ⟨near, far, hn, hfind⟩ := onGrid?_eq_find? tie m e
  rw [hfind]
  intro hnone
  rw [List.find?_eq_none] at hnone
  rcases hn.mem_uIcc c with hp | hp
  · exact hnone near (by simp) (decide_eq_true (magnitudeOf_of_mem_uIcc hm hc hp))
  · exact hnone far (by simp) (decide_eq_true (magnitudeOf_of_mem_uIcc hm hc hp))

/-! ## The first digit -/

theorem length_toDigits_bounds {a : Nat} (ha : 0 < a) :
    10 ^ ((Nat.toDigits 10 a).length - 1) ≤ a ∧ a < 10 ^ (Nat.toDigits 10 a).length := by
  have hpos : 0 < (Nat.toDigits 10 a).length := Nat.length_toDigits_pos
  refine ⟨?_, (Nat.length_toDigits_le_iff (by decide) hpos).mp (Nat.le_refl _)⟩
  generalize hl : (Nat.toDigits 10 a).length - 1 = l
  rcases Nat.eq_zero_or_pos l with rfl | hlpos
  · exact ha
  · by_contra hlt
    have := (Nat.length_toDigits_le_iff (b := 10) (by decide) hlpos).mpr (Nat.lt_of_not_le hlt)
    omega

/-- Where a quotient is not a negative power of ten, its first digit stands where it is expected. -/
theorem decimalExponent_bounds {n d : Nat} (hn : 0 < n) (hd : 0 < d) (hten : ¬ 10 ∣ d) :
    (10 : ℚ) ^ decimalExponent n d ≤ (n : ℚ) / d ∧
      (n : ℚ) / d < (10 : ℚ) ^ (decimalExponent n d + 1) := by
  have hdq : (0 : ℚ) < d := Nat.cast_pos.mpr hd
  rw [decimalExponent]
  split
  · next hle =>
    obtain ⟨hlow, hhigh⟩ := length_toDigits_bounds (Nat.div_pos hle hd)
    have hpos : 0 < (Nat.toDigits 10 (n / d)).length := Nat.length_toDigits_pos
    generalize (Nat.toDigits 10 (n / d)).length = l at hlow hhigh hpos ⊢
    have hexp : (l : Int) - 1 = ((l - 1 : Nat) : Int) := by omega
    have hmul : 10 ^ (l - 1) * d ≤ n := (Nat.le_div_iff_mul_le hd).mp hlow
    have hmul' : n < 10 ^ l * d := (Nat.div_lt_iff_lt_mul hd).mp hhigh
    rw [Int.sub_add_cancel, hexp, zpow_natCast, zpow_natCast, le_div_iff₀ hdq, div_lt_iff₀ hdq]
    exact ⟨by exact_mod_cast hmul, by exact_mod_cast hmul'⟩
  · next hlt =>
    obtain ⟨hlow, hhigh⟩ := length_toDigits_bounds (Nat.div_pos (Nat.le_of_not_le hlt) hn)
    have hpos : 0 < (Nat.toDigits 10 (d / n)).length := Nat.length_toDigits_pos
    generalize (Nat.toDigits 10 (d / n)).length = l at hlow hhigh hpos ⊢
    have hexp : -(l : Int) + 1 = -((l - 1 : Nat) : Int) := by omega
    have hmul : 10 ^ (l - 1) * n ≤ d := (Nat.le_div_iff_mul_le hn).mp hlow
    have hmul' : d < 10 ^ l * n := (Nat.div_lt_iff_lt_mul hn).mp hhigh
    have hne : 10 ^ (l - 1) * n ≠ d := by
      rintro rfl
      cases hl : l - 1 with
      | zero => simp [hl] at hlt
      | succ j => exact hten (hl ▸ (Nat.pow_succ' ▸ ⟨10 ^ j * n, Nat.mul_assoc _ _ _⟩))
    have hpow : ∀ j : Nat, (0 : ℚ) < 10 ^ j := fun j => by positivity
    rw [hexp, zpow_neg, zpow_neg, zpow_natCast, zpow_natCast, le_div_iff₀ hdq, div_lt_iff₀ hdq,
      inv_mul_eq_div, inv_mul_eq_div, div_le_iff₀ (hpow l), lt_div_iff₀ (hpow _)]
    have hlt' := Nat.lt_of_le_of_ne hmul hne
    rw [Nat.mul_comm] at hlt' hmul'
    exact ⟨by exact_mod_cast hmul'.le, by exact_mod_cast hlt'⟩

/-- The power of ten of the first digit of a double. -/
def leading (m : Nat) : Int := decimalExponent (units m) (Nat.pow 2 1074)

theorem units_pos {m : Nat} (h : 0 < m) : 0 < units m := by
  have hzero : units 0 = 0 := by decide
  rw [← hzero]
  exact units_strictMono h

theorem not_ten_dvd_natPow (p : Nat) : ¬ 10 ∣ Nat.pow 2 p := by
  intro h
  have hfive : 5 ∣ 2 ^ p := Nat.dvd_trans (by decide) h
  exact absurd (Nat.prime_five.dvd_of_dvd_pow hfive) (by decide)

/-- In steps of its `k`-th digit, a double has `k + 1` digits before the point. -/
theorem leading_bounds {m : Nat} (h : 0 < m) (k : Nat) :
    (10 : ℚ) ^ k * 10 ^ (leading m - k) ≤ numberOf m ∧
      numberOf m < (10 : ℚ) ^ (k + 1) * 10 ^ (leading m - k) := by
  have hten : (10 : ℚ) ≠ 0 := by norm_num
  have hlow : (10 : ℚ) ^ k * 10 ^ (leading m - k) = 10 ^ leading m := by
    rw [← zpow_natCast, ← zpow_add₀ hten, add_sub_cancel]
  have hhigh : (10 : ℚ) ^ (k + 1) * 10 ^ (leading m - k) = 10 ^ (leading m + 1) := by
    rw [pow_succ', mul_assoc, hlow, zpow_add_one₀ hten, mul_comm]
  rw [hlow, hhigh, leading, numberOf]
  generalize 1074 = p
  exact decimalExponent_bounds (units_pos h) (natPow_two_pos p) (not_ten_dvd_natPow p)

/-! ## The search -/

/-- A multiple of a power of ten stands between a number and a decimal of few digits. -/
theorem exists_mem_uIcc {x : ℚ} {k : Nat} (hx : (10 : ℚ) ^ k * 10 ^ e ≤ x)
    (hd : d.coefficient < 10 ^ (k + 1)) : ∃ c : Nat, c * (10 : ℚ) ^ e ∈ Set.uIcc x d.value := by
  rcases Int.lt_or_le d.exponent e with hlt | hle
  · -- the decimal is so low that it has all its digits below the first one of the number
    refine ⟨10 ^ k, Set.mem_uIcc.mpr (.inr ⟨?_, by exact_mod_cast hx⟩)⟩
    have hten : (10 : ℚ) ≠ 0 := by norm_num
    have hcoefficient : (d.coefficient : ℚ) ≤ 10 ^ (k + 1) := by exact_mod_cast hd.le
    have hexp : (10 : ℚ) ^ (d.exponent + 1) ≤ 10 ^ e :=
      zpow_le_zpow_right₀ (by norm_num) (by omega)
    calc d.value ≤ 10 ^ (k + 1) * 10 ^ d.exponent :=
          mul_le_mul_of_nonneg_right hcoefficient (zpow_nonneg (by norm_num) _)
      _ = 10 ^ k * 10 ^ (d.exponent + 1) := by rw [zpow_add_one₀ hten]; ring
      _ ≤ 10 ^ k * 10 ^ e := mul_le_mul_of_nonneg_left hexp (by positivity)
      _ = (10 ^ k : Nat) * 10 ^ e := by push_cast; rfl
  · -- the decimal is a multiple itself
    refine ⟨d.coefficient * 10 ^ (d.exponent - e).toNat, ?_⟩
    rw [Decimal.value_eq_mul hle]
    exact Set.right_mem_uIcc

/-- A decimal of `k + 1` digits that is rounded to the double is no nearer than one on the grid. -/
theorem exists_onGrid (h : 0 < m) (hm : m < infinity) {k : Nat} (hd : magnitudeOf d = m)
    (hk : d.length ≤ k + 1) :
    ∃ c : Nat, magnitudeOf ⟨c, leading m - k⟩ = m ∧
      |c * (10 : ℚ) ^ (leading m - k) - numberOf m| ≤ |d.value - numberOf m| := by
  have hlt := (Decimal.length_le_iff (Nat.succ_pos k)).mp hk
  obtain ⟨c, hc⟩ := exists_mem_uIcc (leading_bounds h k).1 hlt
  exact ⟨c, magnitudeOf_of_mem_uIcc hm hd hc, Set.abs_sub_left_of_mem_uIcc hc⟩

/-- On the grid of 17 digits the nearer neighbour is rounded to the double. -/
theorem onGrid?_sixteen_ne_none (h : 0 < m) (hm : m < infinity) :
    onGrid? tie m (leading m - 16) ≠ none := by
  obtain ⟨near, far, hn, -⟩ := onGrid?_eq_find? tie m (leading m - 16)
  have hhalf := hn.two_mul_abs_sub_le
  have hlow := (leading_bounds h 16).1
  have hpos : (0 : ℚ) < 10 ^ (leading m - 16) := zpow_pos (by norm_num) _
  have hnear : magnitudeOf near = m := by
    refine magnitudeOf_of_near hm ?_
    push_cast at hlow
    norm_num at hlow ⊢
    linarith
  obtain ⟨q, -, ⟨rfl, -⟩ | ⟨rfl, -⟩⟩ := hn.around
  · exact onGrid?_ne_none hm hnear
  · exact onGrid?_ne_none hm hnear

/-- The search takes what it finds on the first grid on which it finds anything. -/
theorem exists_first_grid (tie : Tie) (h : 0 < m) (hm : m < infinity) :
    ∃ k : Nat, k < 17 ∧ ∃ d, shortest tie m = d.normalize ∧
      onGrid? tie m (leading m - k) = some d ∧
      ∀ i : Nat, i < k → onGrid? tie m (leading m - i) = none := by
  have hfound : (List.range 17).findSome? (fun (k : Nat) => onGrid? tie m (leading m - k)) ≠ none := by
    rw [Ne, List.findSome?_eq_none_iff]
    intro hall
    exact onGrid?_sixteen_ne_none h hm (hall 16 (by simp))
  obtain ⟨d, hd⟩ := Option.ne_none_iff_exists'.mp hfound
  obtain ⟨before, k, after, hrange, hk, hbefore⟩ := List.findSome?_eq_some_iff.mp hd
  have hmem : k ∈ List.range 17 := by rw [hrange]; simp
  have hsorted : List.Pairwise (· < ·) (before ++ k :: after) := hrange ▸ List.pairwise_lt_range
  refine ⟨k, List.mem_range.mp hmem, d, ?_, hk, ?_⟩
  · rw [shortest, if_neg h.ne']
    show (((List.range 17).findSome? fun (k : Nat) => onGrid? tie m (leading m - k)).getD
      (expansion m)).normalize = _
    rw [hd, Option.getD_some]
  · intro i hi
    have hi' : i ∈ before ++ k :: after := by
      rw [← hrange, List.mem_range]
      exact hi.trans (List.mem_range.mp hmem)
    rcases List.mem_append.mp hi' with hi' | hi'
    · exact hbefore i hi'
    · have hafter := (List.pairwise_append.mp hsorted).2.1
      rcases List.mem_cons.mp hi' with rfl | hi'
      · exact absurd hi (Nat.lt_irrefl _)
      · exact absurd ((List.pairwise_cons.mp hafter).1 i hi') (Nat.lt_asymm hi)

/-- What is found on the `k`-th grid has at most `k + 1` digits without the zeros at its end. -/
theorem length_normalize_le (h : 0 < m) (hm : m < infinity) {k : Nat}
    (hd : onGrid? tie m (leading m - k) = some d) : d.normalize.length ≤ k + 1 := by
  obtain ⟨⟨near, far, hn, hcases⟩, -⟩ := onGrid?_eq_some hm hd
  have hle : d.exponent = leading m - k ∧ d.coefficient ≤ 10 ^ (k + 1) := by
    obtain ⟨hnear, hfar⟩ := hn.coefficient_le (leading_bounds h k).2
    rcases hcases with rfl | rfl
    · exact hnear
    · exact hfar
  rw [Decimal.length_le_iff (Nat.succ_pos k)]
  rcases hle.2.lt_or_eq with hlt | heq
  · exact lt_of_le_of_lt (Decimal.coefficient_normalize_le rfl) hlt
  · -- a one with zeros behind it, of which none is left
    have hvalue : d.value = Decimal.value ⟨1, d.exponent + (k + 1 : Nat)⟩ := by
      refine ((Decimal.value_eq_iff_of_le (by dsimp only; omega)).mpr ?_).symm
      have hexp : (d.exponent + (k + 1 : Nat) - d.exponent).toNat = k + 1 := by omega
      dsimp only
      rw [hexp, heq, Nat.one_mul]
    exact lt_of_le_of_lt (Decimal.coefficient_normalize_le hvalue)
      (Nat.one_lt_pow (Nat.succ_ne_zero k) (by decide))

/-! ## What the search finds -/

/-- A shortest decimal that is rounded to a double, and of those the nearest one. -/
structure IsShortest (m : Nat) (d : Decimal) : Prop where
  reads : magnitudeOf d = m
  length_le : ∀ d', magnitudeOf d' = m → d.length ≤ d'.length
  le : ∀ d', magnitudeOf d' = m → d'.length = d.length →
    |d.value - numberOf m| ≤ |d'.value - numberOf m|

theorem isShortest_zero : IsShortest 0 ⟨0, 0⟩ := by
  have hzero : (⟨0, 0⟩ : Decimal).value = numberOf 0 := by
    rw [numberOf_zero, Decimal.value, Nat.cast_zero, zero_mul]
  refine ⟨rfl, fun d _ => d.length_pos, ?_⟩
  intro d _ _
  rw [hzero, sub_self, abs_zero]
  exact abs_nonneg _

/--
**What is written for a double is a shortest decimal.** It is rounded to the double, no decimal with
fewer digits is, and of those with as many digits none is nearer.
-/
theorem isShortest_shortest (tie : Tie) (hm : m < infinity) : IsShortest m (shortest tie m) := by
  rcases Nat.eq_zero_or_pos m with rfl | h
  · exact isShortest_zero
  · obtain ⟨k, -, d, hshortest, hfound, hbefore⟩ := exists_first_grid tie h hm
    have hlength := length_normalize_le h hm hfound
    have hvalue := Decimal.value_normalize d
    rw [hshortest]
    refine ⟨(magnitudeOf_congr hvalue).trans (magnitudeOf_of_onGrid? hfound), ?_, ?_⟩
    · intro d' hd'
      by_contra hlt
      have hpos := d'.length_pos
      obtain ⟨i, hi⟩ : ∃ i, d'.length = i + 1 := ⟨d'.length - 1, by omega⟩
      obtain ⟨c, hc, -⟩ := exists_onGrid h hm hd' hi.le
      exact onGrid?_ne_none hm hc (hbefore i (by omega))
    · intro d' hd' hsame
      obtain ⟨c, hc, hle⟩ := exists_onGrid h hm hd' (hsame.le.trans hlength)
      rw [hvalue]
      exact ((onGrid?_eq_some hm hfound).2 c hc).trans hle

/-- Seventeen digits are always enough. -/
theorem length_shortest_le (tie : Tie) (hm : m < infinity) : (shortest tie m).length ≤ 17 := by
  rcases Nat.eq_zero_or_pos m with rfl | h
  · exact (by decide : Decimal.length ⟨0, 0⟩ ≤ 17)
  · obtain ⟨k, hk, d, hshortest, hfound, -⟩ := exists_first_grid tie h hm
    have hlength := length_normalize_le h hm hfound
    rw [hshortest]
    omega

/-- The last digit is not zero, unless it is the only one. -/
theorem shortest_mod_ten (tie : Tie) (h : 0 < m) (hm : m < infinity) :
    (shortest tie m).coefficient % 10 ≠ 0 := by
  have hreads := (isShortest_shortest tie hm).reads
  obtain ⟨k, -, d, hshortest, -, -⟩ := exists_first_grid tie h hm
  rw [hshortest] at hreads ⊢
  refine d.normalize_coefficient.resolve_left fun hzero => h.ne ?_
  rw [← hreads, eq_comm, magnitudeOf_eq_zero_iff, Decimal.value, hzero, Nat.cast_zero, zero_mul,
    halfway_zero]
  positivity

/-! ## Numerals -/

/-- How a number is written does not change it. -/
theorem value_numeral (style : NumberStyle) (x : Binary64) :
    (x.numeral style).absolute.value = (shortest style.tie x.magnitude).value := by
  rw [numeral]
  split
  · exact Decimal.value_positional _ _
  · exact congrArg Decimal.value (Decimal.absolute_scientific _)

/-- A number is read back from the way it is written. -/
theorem magnitudeOf_numeral (style : NumberStyle) {x : Binary64} (h : x.magnitude < infinity) :
    magnitudeOf (x.numeral style).absolute = x.magnitude := by
  rw [magnitudeOf_congr (value_numeral style x)]
  exact (isShortest_shortest style.tie h).reads

end Binary64

end Lox
