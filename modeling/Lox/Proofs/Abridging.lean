import Lox.Proofs.Nearest
import Lox.Proofs.Shortest
import Lox.Wire.Basic

/-!
# The digits that are told apart

A number that is read from the wire is abridged to 768 digits, and whatever follows them counts as
one digit 1. No double and no point halfway between two doubles has more digits than that, so what
is cut off never reaches one of these points, and the abridged number is rounded as the whole number
is. There is one exception. Zeros that follow the 768 digits before the point, or before the power
of ten, count as the digit 1 too, and this makes a difference to a number that lies exactly on a
halfway point: it is always rounded up.

The point behind which everything is infinite is such a point, and there a number is rounded up in
any case. So whether a number is in the range does not depend on the digits that are cut off.
-/

namespace Lox

namespace Binary64

/-! ## Halfway points are short -/

theorem shift_le {m : Nat} (h : m < infinity) : m / 2 ^ 52 - 1 ≤ 2045 := by
  have hlt : m < 2047 * 2 ^ 52 := h
  omega

/--
A number of few bits times a power of two is a decimal with few digits: as a fraction it has as many
factors of five as there are binary places left, and else it is a whole number.
-/
theorem exists_value_eq_dyadic {s b j l p k : Nat} (hs : s < b) (hj : j ≤ l)
    (hfraction : b * 5 ^ p ≤ k) (hwhole : b * 2 ^ (l - p) ≤ k) :
    ∃ d : Decimal, d.value = (s * 2 ^ j : Nat) / (Nat.pow 2 p : Nat) ∧ d.coefficient < k := by
  have hmul : ∀ a, Nat.pow 5 a * 2 ^ a = 10 ^ a := fun a => (Nat.mul_pow 5 2 a).symm
  rw [← value_mul_pow_five]
  rcases Nat.le_total j p with hle | hle
  · refine ⟨⟨s * 5 ^ (p - j), -((p - j : Nat) : Int)⟩, ?_, ?_⟩
    · have hfive : Nat.pow 5 p = 5 ^ (p - j) * Nat.pow 5 j := by
        rw [Nat.pow_eq, Nat.pow_eq, ← Nat.pow_add, Nat.sub_add_cancel hle]
      rw [Decimal.value_eq_iff_of_le (by dsimp only; omega)]
      have hexp : (-((p - j : Nat) : Int) - -(p : Int)).toNat = j := by omega
      dsimp only
      rw [hexp, hfive, ← hmul j]
      ring
    · calc s * 5 ^ (p - j) < b * 5 ^ (p - j) :=
            Nat.mul_lt_mul_of_pos_right hs (Nat.pow_pos (by decide))
        _ ≤ b * 5 ^ p :=
            Nat.mul_le_mul_left _ (Nat.pow_le_pow_right (by decide) (Nat.sub_le p j))
        _ ≤ k := hfraction
  · refine ⟨⟨s * 2 ^ (j - p), 0⟩, ?_, ?_⟩
    · have htwo : 2 ^ j = 2 ^ (j - p) * 2 ^ p := by rw [← Nat.pow_add, Nat.sub_add_cancel hle]
      rw [Decimal.value_eq_iff_of_le (by dsimp only; omega)]
      have hexp : ((0 : Int) - -(p : Int)).toNat = p := by omega
      dsimp only
      rw [hexp, htwo, ← hmul p]
      ring
    · calc s * 2 ^ (j - p) < b * 2 ^ (j - p) :=
            Nat.mul_lt_mul_of_pos_right hs (Nat.two_pow_pos _)
        _ ≤ b * 2 ^ (l - p) :=
            Nat.mul_le_mul_left _ (Nat.pow_le_pow_right (by decide) (by omega))
        _ ≤ k := hwhole

/-- Twice a halfway point is a number of 54 bits, shifted. -/
theorem exists_turn_eq (m : Nat) : ∃ s < 2 ^ 54, turn m = s * 2 ^ (m / 2 ^ 52 - 1) := by
  obtain ⟨s, hs, hunits⟩ := exists_units_eq m
  refine ⟨2 * s + 1, by omega, ?_⟩
  rw [turn, units_succ, hunits, gap]
  ring

theorem halfway_eq_div (m : Nat) : halfway m = (turn m : Nat) / (Nat.pow 2 1075 : Nat) := by
  have hsucc : 1075 = 1074 + 1 := rfl
  rw [halfway, numberOf, numberOf, turn, hsucc]
  generalize 1074 = p
  rw [Nat.pow_eq, Nat.pow_eq, pow_succ]
  push_cast
  field_simp

/-- A halfway point is a decimal of at most 768 digits. -/
theorem exists_value_eq_halfway {m : Nat} (h : m < infinity) :
    ∃ d : Decimal, d.value = halfway m ∧ d.coefficient < 10 ^ 768 := by
  obtain ⟨s, hs, hturn⟩ := exists_turn_eq m
  have hfraction : 2 ^ 54 * 5 ^ 1075 ≤ 10 ^ 768 := by decide +kernel
  have hwhole : 2 ^ 54 * 2 ^ (2045 - 1075) ≤ 10 ^ 768 := by decide +kernel
  rw [halfway_eq_div, hturn]
  generalize (1075 : Nat) = p at hfraction hwhole ⊢
  exact exists_value_eq_dyadic hs (shift_le h) hfraction hwhole

/-- With as many digits in front, no halfway point lies between a number and the next one. -/
theorem halfway_not_between {m q : Nat} {e : Int} (h : m < infinity) (hq : 10 ^ 767 ≤ q) :
    ¬ (q * (10 : ℚ) ^ e < halfway m ∧ halfway m < (q + 1 : Nat) * (10 : ℚ) ^ e) := by
  intro hbetween
  obtain ⟨d, hvalue, hd⟩ := exists_value_eq_halfway h
  have hsucc : 768 = 767 + 1 := rfl
  rw [hsucc, pow_succ] at hd
  generalize 10 ^ 767 = b at hq hd
  rw [← hvalue] at hbetween
  rcases Int.le_total e d.exponent with hle | hle
  · -- the halfway point is a multiple of the power of ten
    rw [Decimal.value_eq_mul hle, Decimal.mul_zpow_lt_iff, Decimal.mul_zpow_lt_iff] at hbetween
    omega
  · -- or it would have more digits than `q`
    obtain ⟨k, rfl⟩ := Int.le.dest hle
    rw [Decimal.mul_zpow_add, Decimal.mul_zpow_add, Decimal.value, Decimal.mul_zpow_lt_iff,
      Decimal.mul_zpow_lt_iff] at hbetween
    cases k with
    | zero =>
      rw [Nat.pow_zero, Nat.mul_one, Nat.mul_one] at hbetween
      omega
    | succ k =>
      have hten : q * 10 ≤ q * 10 ^ (k + 1) :=
        Nat.mul_le_mul_left q (Nat.le_self_pow (Nat.succ_ne_zero k) 10)
      omega

end Binary64

/-! ## Abridged numbers -/

namespace Numeral

/-- Without zeros at the end of its places, the number has no more digits than are told apart. -/
def Short (n : Numeral) : Prop :=
  ∃ zeros ≤ n.places, 10 ^ zeros ∣ n.coefficient ∧ n.absolute.length ≤ wireDigits + zeros

theorem abridged_of_short {n : Numeral} (h : n.Short) : n.abridged wireDigits = n.absolute := by
  obtain ⟨zeros, hplaces, hdvd, hlength⟩ := h
  have hle : n.absolute.length - wireDigits ≤ zeros := by omega
  have hmod : n.coefficient % Nat.pow 10 (n.absolute.length - wireDigits) = 0 :=
    Nat.mod_eq_zero_of_dvd ((Nat.pow_dvd_pow 10 hle).trans hdvd)
  unfold abridged
  exact if_pos ⟨hle.trans hplaces, hmod⟩

/-- A number that is not short loses all but 768 digits. -/
theorem abridged_of_not_short {n : Numeral} (h : ¬ n.Short) :
    ∃ k : Nat, 10 ^ 767 ≤ n.coefficient / 10 ^ k ∧
      n.abridged wireDigits = ⟨n.coefficient / 10 ^ k * 10 + 1, n.absolute.exponent + k - 1⟩ := by
  have hlong : wireDigits < n.absolute.length := by
    by_contra hle
    exact h ⟨0, Nat.zero_le _, Nat.one_dvd _, by omega⟩
  refine ⟨n.absolute.length - wireDigits, ?_, ?_⟩
  · have hpos : 0 < 767 + (n.absolute.length - wireDigits) := by omega
    have hnot : ¬ n.absolute.length ≤ 767 + (n.absolute.length - wireDigits) := by
      have hlimit : wireDigits = 768 := rfl
      omega
    have hten : 0 < 10 ^ (n.absolute.length - wireDigits) := Nat.pow_pos (by decide)
    rw [Decimal.length_le_iff hpos, Nat.not_lt, pow_add] at hnot
    exact (Nat.le_div_iff_mul_le hten).mpr hnot
  · unfold abridged
    refine if_neg fun hall => h ?_
    exact ⟨_, hall.1, Nat.dvd_of_mod_eq_zero hall.2, by omega⟩

/--
The digits that are left of a number that is not short, and one more: between these two lie the
number and its abridged form. Only the number itself can be equal to the lower one.
-/
theorem abridged_between {n : Numeral} (h : ¬ n.Short) :
    ∃ (q : Nat) (e : Int), 10 ^ 767 ≤ q ∧
      (q * (10 : ℚ) ^ e ≤ n.absolute.value ∧ n.absolute.value < (q + 1 : Nat) * (10 : ℚ) ^ e) ∧
      (q * (10 : ℚ) ^ e < (n.abridged wireDigits).value ∧
        (n.abridged wireDigits).value < (q + 1 : Nat) * (10 : ℚ) ^ e) := by
  obtain ⟨k, hq, habridged⟩ := abridged_of_not_short h
  refine ⟨n.coefficient / 10 ^ k, n.absolute.exponent + k, hq, ⟨?_, ?_⟩, ?_⟩
  · have hle := Nat.div_mul_le_self n.coefficient (10 ^ k)
    rw [Decimal.mul_zpow_add, ← not_lt, Decimal.value, Decimal.mul_zpow_lt_iff, not_lt]
    exact hle
  · have hlt := Nat.lt_div_mul_add (a := n.coefficient) (b := 10 ^ k) (Nat.pow_pos (by decide))
    rw [Decimal.mul_zpow_add, Decimal.value, Decimal.mul_zpow_lt_iff, Nat.succ_mul]
    exact hlt
  · rw [habridged, Decimal.value]
    dsimp only
    generalize he : n.absolute.exponent + k - 1 = e
    have hlast : n.absolute.exponent + k = e + (1 : Nat) := by omega
    rw [hlast, Decimal.mul_zpow_add, Decimal.mul_zpow_add, Decimal.mul_zpow_lt_iff,
      Decimal.mul_zpow_lt_iff]
    omega

end Numeral

namespace Binary64

variable {n : Numeral}

/-- A number that is not short is rounded up from every halfway point that it reaches. -/
theorem lt_magnitudeOf_abridged_iff (h : ¬ n.Short) {k : Nat} (hk : k < infinity) :
    k < magnitudeOf (n.abridged wireDigits) ↔ halfway k ≤ n.absolute.value := by
  obtain ⟨q, e, hq, ⟨hle, hlt⟩, hle', hlt'⟩ := Numeral.abridged_between h
  have hnot := halfway_not_between (e := e) hk hq
  rw [not_and_or, not_lt, not_lt] at hnot
  rw [lt_magnitudeOf_iff hk]
  refine ⟨?_, ?_⟩
  · intro hturn
    rcases hnot with hnot | hnot
    · exact hnot.trans hle
    · rcases hturn with hturn | ⟨hturn, -⟩
      · linarith
      · linarith
  · intro hreach
    rcases hnot with hnot | hnot
    · exact .inl (lt_of_le_of_lt hnot hle')
    · linarith

theorem magnitudeOf_le_abridged (n : Numeral) :
    magnitudeOf n.absolute ≤ magnitudeOf (n.abridged wireDigits) := by
  by_cases h : n.Short
  · rw [Numeral.abridged_of_short h]
  · by_contra hlt
    rw [not_le] at hlt
    have hk := lt_of_lt_of_le hlt (magnitudeOf_le n.absolute)
    refine (Nat.lt_irrefl _) ((lt_magnitudeOf_abridged_iff h hk).mpr ?_)
    rcases (lt_magnitudeOf_iff hk).mp hlt with hturn | ⟨hturn, -⟩
    · exact hturn.le
    · exact hturn.le

/-- What is cut off makes no difference, unless the number lies on a halfway point. -/
theorem magnitudeOf_abridged (h : n.absolute.value = halfway (magnitudeOf n.absolute) → n.Short) :
    magnitudeOf (n.abridged wireDigits) = magnitudeOf n.absolute := by
  by_cases hshort : n.Short
  · rw [Numeral.abridged_of_short hshort]
  · refine Nat.le_antisymm ?_ (magnitudeOf_le_abridged n)
    by_contra hlt
    rw [not_le] at hlt
    have hk := lt_of_lt_of_le hlt (magnitudeOf_le _)
    have hreach := (lt_magnitudeOf_abridged_iff hshort hk).mp hlt
    have hturn := (lt_magnitudeOf_iff hk).not.mp (Nat.lt_irrefl _)
    rw [not_or, not_lt] at hturn
    exact hshort (h (le_antisymm hturn.1 hreach))

/-- A number on a halfway point is rounded up if something is cut off. -/
theorem magnitudeOf_abridged_of_halfway (hfinite : magnitudeOf n.absolute < infinity)
    (h : n.absolute.value = halfway (magnitudeOf n.absolute)) (hshort : ¬ n.Short) :
    magnitudeOf n.absolute < magnitudeOf (n.abridged wireDigits) :=
  (lt_magnitudeOf_abridged_iff hshort hfinite).mpr h.ge

/-- **The range does not depend on what is cut off.** -/
theorem magnitudeOf_abridged_eq_infinity_iff :
    magnitudeOf (n.abridged wireDigits) = infinity ↔ 2 ^ 1024 - 2 ^ 970 ≤ n.absolute.value := by
  by_cases h : n.Short
  · rw [Numeral.abridged_of_short h, magnitudeOf_eq_infinity_iff]
  · have hle := magnitudeOf_le (n.abridged wireDigits)
    have hlargest : infinity - 1 < infinity := by decide
    have hlast : magnitudeOf (n.abridged wireDigits) = infinity ↔
        infinity - 1 < magnitudeOf (n.abridged wireDigits) := by omega
    rw [hlast, lt_magnitudeOf_abridged_iff h hlargest, halfway_largest]

/-! ## Numbers that are read from the wire -/

/-- A number is not read exactly if it is rounded beyond the range. -/
theorem ofJson?_number_eq_none_iff :
    ofJson? (.number n) = none ↔ 2 ^ 1024 - 2 ^ 970 ≤ n.absolute.value := by
  have hle := magnitudeOf_le (n.abridged wireDigits)
  have hfinite : (ofDecimal n.negative (n.abridged wireDigits)).isFinite = true ↔
      ¬ magnitudeOf (n.abridged wireDigits) = infinity := by
    rw [isFinite_ofDecimal_iff]
    omega
  rw [← magnitudeOf_abridged_eq_infinity_iff, ofJson?]
  by_cases h : magnitudeOf (n.abridged wireDigits) = infinity
  · rw [if_neg (fun hf => hfinite.mp hf h)]
    exact iff_of_true rfl h
  · rw [if_pos (hfinite.mpr h)]
    exact iff_of_false (by simp) h

/--
**A number is read as the double that it is rounded to,** if and only if it does not lie on the
halfway point behind this double with digits that are cut off.
-/
theorem ofJson?_number_eq_some_iff {x : Binary64} (hfinite : x.isFinite = true)
    (hsign : x.negative = n.negative)
    (hnearest : IsNearest (signed n.negative n.absolute.value) x) :
    ofJson? (.number n) = some x ↔ (n.absolute.value = halfway x.magnitude → n.Short) := by
  have hx : x = ofDecimal n.negative n.absolute :=
    hnearest.unique (isNearest_ofDecimal n.negative n.absolute) hsign
  have hlt : magnitudeOf n.absolute < infinity := by
    rw [hx] at hfinite
    exact isFinite_ofDecimal_iff.mp hfinite
  have hmagnitude : x.magnitude = magnitudeOf n.absolute := by rw [hx, magnitude_ofDecimal]
  rw [hmagnitude, ofJson?]
  refine ⟨?_, ?_⟩
  · intro hread htie
    by_contra hshort
    have hup := magnitudeOf_abridged_of_halfway hlt htie hshort
    rw [Option.ite_none_right_eq_some] at hread
    have hsame := congrArg magnitude (Option.some.inj hread.2)
    rw [magnitude_ofDecimal, hmagnitude] at hsame
    exact hup.ne' hsame
  · intro htie
    have hsame : ofDecimal n.negative (n.abridged wireDigits) = x := by
      ext1
      · exact hsign.symm
      · rw [magnitude_ofDecimal, hmagnitude]
        exact magnitudeOf_abridged htie
    rw [hsame, if_pos hfinite]

end Binary64

end Lox
