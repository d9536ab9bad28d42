import Lox.Decimal.Basic
import Mathlib.Data.List.Basic

/-!
# The digits of a numeral

The digits of a written number are those of its coefficient, with zeros in front where there are too
few of them to leave one before the point. Parting them at the point loses nothing, and the part
before the point is a single zero or does not begin with one.
-/

namespace Lox

/-! ## Padded digits -/

namespace Digits

theorem isDigit_of_mem_padded {width n : Nat} {c : Char} (h : c ∈ padded 10 width n) :
    c.isDigit = true := by
  rcases List.mem_append.mp h with h | h
  · rw [List.eq_of_mem_replicate h]
    rfl
  · exact Nat.isDigit_of_mem_toDigits (by decide) (by decide) h

theorem ofDigitChars_padded (width n : Nat) : Nat.ofDigitChars 10 (padded 10 width n) 0 = n := by
  rw [padded, Nat.ofDigitChars_append, Nat.ofDigitChars_replicate_zero, Nat.mul_zero,
    Nat.ofDigitChars_ten_toDigits]

theorem head?_toDigits_ne_zero {n : Nat} (hn : 0 < n) : (Nat.toDigits 10 n).head? ≠ some '0' := by
  induction n using Nat.strongRecOn with
  | ind n ih =>
    by_cases hlt : n < 10
    · rw [Nat.toDigits_of_lt_base hlt]
      simp [Nat.ne_of_gt hn]
    · have hle : 10 ≤ n := Nat.le_of_not_lt hlt
      have hdiv : 0 < n / 10 := Nat.div_pos hle (by decide)
      rw [Nat.toDigits_of_base_le (by decide) hle,
        List.head?_append_of_ne_nil _ Nat.toDigits_ne_nil]
      exact ih (n / 10) (Nat.div_lt_self hn (by decide)) hdiv

/-- More digits than were asked for are not padded, and then the first one is no zero. -/
theorem head?_padded_ne_zero {width n : Nat} (hw : 0 < width)
    (h : width < (padded 10 width n).length) : (padded 10 width n).head? ≠ some '0' := by
  rw [length_padded] at h
  have hlong : width < (Nat.toDigits 10 n).length := by omega
  have hpos : 0 < n := by
    rcases Nat.eq_zero_or_pos n with rfl | hpos
    · simp at hlong
      omega
    · exact hpos
  have hnone : width - (Nat.toDigits 10 n).length = 0 := by omega
  rw [padded, hnone, List.replicate_zero, List.nil_append]
  exact head?_toDigits_ne_zero hpos

/-- The last digit is that of the units. -/
theorem getLast?_padded (width n : Nat) :
    (padded 10 width n).getLast? = some (Nat.digitChar (n % 10)) := by
  have hlast : (Nat.toDigits 10 n).getLast? = some (Nat.digitChar (n % 10)) := by
    by_cases hlt : n < 10
    · rw [Nat.toDigits_of_lt_base hlt, Nat.mod_eq_of_lt hlt, List.getLast?_singleton]
    · rw [Nat.toDigits_of_base_le (by decide) (Nat.le_of_not_lt hlt), List.getLast?_concat]
  rw [padded, List.getLast?_append_of_ne_nil _ Nat.toDigits_ne_nil, hlast]

theorem digitChar_ne_zero {n : Nat} (h : n % 10 ≠ 0) : Nat.digitChar (n % 10) ≠ '0' := by
  have hall : ∀ r < 10, r ≠ 0 → Nat.digitChar r ≠ '0' := by decide
  exact hall _ (Nat.mod_lt n (by decide)) h

theorem lt_length_padded (width n : Nat) : width < (padded 10 (width + 1) n).length := by
  rw [length_padded]
  exact Nat.le_max_left _ _

end Digits

/-! ## The parts of a numeral -/

namespace Numeral

/-- The digits before and behind the point. -/
def digits (n : Numeral) : List Char := Digits.padded 10 (n.places + 1) n.coefficient

/-- The digits before the point. -/
def whole (n : Numeral) : List Char := n.digits.take (n.digits.length - n.places)

/-- The digits behind the point. -/
def fraction (n : Numeral) : List Char := n.digits.drop (n.digits.length - n.places)

/-- The point with the digits behind it, if there are any. -/
def fractionChars (n : Numeral) : List Char := if n.places = 0 then [] else '.' :: n.fraction

theorem chars_eq (n : Numeral) :
    n.chars = (if n.negative then ['-'] else []) ++
      (n.whole ++ (n.fractionChars ++ exponentChars n.exponent)) := by
  simp only [chars, whole, fractionChars, fraction, digits, List.append_assoc]

theorem places_lt_length (n : Numeral) : n.places < n.digits.length :=
  Digits.lt_length_padded n.places n.coefficient

theorem isDigit_of_mem_whole {n : Numeral} {c : Char} (h : c ∈ n.whole) : c.isDigit = true :=
  Digits.isDigit_of_mem_padded (List.mem_of_mem_take h)

theorem isDigit_of_mem_fraction {n : Numeral} {c : Char} (h : c ∈ n.fraction) : c.isDigit = true :=
  Digits.isDigit_of_mem_padded (List.mem_of_mem_drop h)

theorem length_fraction (n : Numeral) : n.fraction.length = n.places := by
  have := n.places_lt_length
  rw [fraction, List.length_drop]
  omega

theorem fraction_ne_nil {n : Numeral} (h : n.places ≠ 0) : n.fraction ≠ [] := by
  intro hnil
  have hlength := n.length_fraction
  rw [hnil] at hlength
  exact h hlength.symm

/-- At least one digit stands before the point. -/
theorem whole_ne_nil (n : Numeral) : n.whole ≠ [] := by
  intro hnil
  have hlength := congrArg List.length hnil
  have := n.places_lt_length
  rw [whole, List.length_take, List.length_nil] at hlength
  omega

/-- The part before the point is a single zero, or it does not begin with one. -/
theorem whole_eq_zero_or (n : Numeral) : n.whole = ['0'] ∨ n.whole.head? ≠ some '0' := by
  have hlength := n.places_lt_length
  rcases Nat.lt_or_ge (n.places + 1) n.digits.length with hlt | hge
  · -- nothing was padded
    right
    rw [whole, List.head?_take, if_neg (by omega)]
    exact Digits.head?_padded_ne_zero (Nat.succ_pos n.places) hlt
  · -- a single digit is left before the point
    have hone : n.digits.length - n.places = 1 := by omega
    rw [whole, hone]
    cases hds : n.digits with
    | nil =>
      rw [hds] at hlength
      exact absurd hlength (by simp)
    | cons d tail =>
      by_cases hd : d = '0'
      · left
        rw [hd]
        rfl
      · right
        simp [hd]

/-- The last digit behind the point is that of the coefficient. -/
theorem getLast?_fraction {n : Numeral} (h : n.places ≠ 0) :
    n.fraction.getLast? = some (Nat.digitChar (n.coefficient % 10)) := by
  have hlength := n.places_lt_length
  rw [fraction, List.getLast?_drop, if_neg (by omega), digits, Digits.getLast?_padded]

/-- Nothing is lost at the point. -/
theorem ofParts_whole_fraction (n : Numeral) :
    ofParts n.whole n.fraction = { coefficient := n.coefficient, places := n.places } := by
  have hvalue : Nat.ofDigitChars 10 n.digits 0 = n.coefficient := Digits.ofDigitChars_padded _ _
  have happend : n.whole ++ n.fraction = n.digits := List.take_append_drop _ _
  rw [ofParts, happend, hvalue, length_fraction]

end Numeral

end Lox
