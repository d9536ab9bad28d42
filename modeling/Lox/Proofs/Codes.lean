import Lox.Diagnostic.Code
import Lox.Proofs.Numerals
import Mathlib.Data.List.DropRight

/-!
# Reading diagnostic codes

The family of a code and its number are written side by side, with nothing between them. All the same
a code is read in one way only, unless its family ends in a digit: the number takes all digits at the
end of the text. There are four of them, or more of which the first is no zero.

A text that ends like this is that of the code that it reads as. This comes down to the digits: any
of them are what is written for their value if it is padded to their number, and padding shows, since
it puts a zero in front.
-/

namespace Lox

/-! ## Digits read back -/

namespace Digits

theorem digitChar_toNat_sub {a : Char} (h : a.isDigit = true) :
    Nat.digitChar (a.toNat - '0'.toNat) = a ∧ a.toNat - '0'.toNat < 10 := by
  obtain ⟨hlow, hhigh⟩ := Char.isDigit_iff_toNat.mp h
  have hlt : a.toNat - '0'.toNat < 10 := by
    have : '9'.toNat = '0'.toNat + 9 := rfl
    omega
  refine ⟨Char.toNat_inj.mp ?_, hlt⟩
  rw [Nat.toNat_digitChar_of_lt_ten hlt]
  exact Nat.add_sub_cancel' hlow

/-- One digit more at the end of a number is one more at the end of what is written for it. -/
theorem padded_append_digit {width d : Nat} (hw : 0 < width) (hd : d < 10) (n : Nat) :
    padded 10 (width + 1) (10 * n + d) = padded 10 width n ++ [Nat.digitChar d] := by
  rcases Nat.eq_zero_or_pos n with rfl | hn
  · -- the only digit of zero is counted among the zeros in front
    obtain ⟨w, rfl⟩ := Nat.exists_eq_add_of_lt hw
    have hdigits : Nat.toDigits 10 (10 * 0 + d) = [Nat.digitChar d] := by
      rw [Nat.mul_zero, Nat.zero_add, Nat.toDigits_of_lt_base hd]
    rw [padded, padded, hdigits, Nat.toDigits_zero, Nat.zero_add]
    simp [List.replicate_succ']
  · have hdigits : Nat.toDigits 10 (10 * n + d) = Nat.toDigits 10 n ++ [Nat.digitChar d] := by
      rw [← Nat.toDigits_append_toDigits (by decide) hn hd, Nat.toDigits_of_lt_base hd]
    rw [padded, padded, hdigits, List.length_append, List.length_singleton,
      Nat.add_sub_add_right, List.append_assoc]

/-- **Digits are what is written for their value**, padded to their number. -/
theorem padded_ofDigitChars {ds : List Char} (hds : ∀ a ∈ ds, a.isDigit = true) (hne : ds ≠ []) :
    padded 10 ds.length (Nat.ofDigitChars 10 ds 0) = ds := by
  induction ds using List.reverseRecOn with
  | nil => exact absurd rfl hne
  | append_singleton ds a ih =>
    obtain ⟨hchar, hlt⟩ := digitChar_toNat_sub (hds a (by simp))
    rw [Nat.ofDigitChars_append, Nat.ofDigitChars_cons, Nat.ofDigitChars_nil, List.length_append,
      List.length_singleton]
    by_cases hnil : ds = []
    · subst hnil
      rw [Nat.ofDigitChars_nil, Nat.mul_zero, Nat.zero_add, padded, Nat.toDigits_of_lt_base hlt,
        hchar]
      rfl
    · rw [padded_append_digit (List.length_pos_iff.mpr hnil) hlt, hchar,
        ih (fun b hb => hds b (List.mem_append_left _ hb)) hnil]

/-- A number that does not begin with a zero has not been padded. -/
theorem padded_eq_toDigits {width n : Nat} (h : (padded 10 width n).head? ≠ some '0') :
    padded 10 width n = Nat.toDigits 10 n := by
  rw [padded] at h ⊢
  cases hk : width - (Nat.toDigits 10 n).length with
  | zero => rfl
  | succ k =>
    rw [hk] at h
    exact absurd rfl h

/-- Digits that are enough, and that do not begin with a zero if they are more than that. -/
theorem padded_of_length {width : Nat} {ds : List Char} (hds : ∀ a ∈ ds, a.isDigit = true)
    (hw : 0 < width) (hle : width ≤ ds.length) (hzero : ds.head? = some '0' → ds.length = width) :
    padded 10 width (Nat.ofDigitChars 10 ds 0) = ds := by
  have hne : ds ≠ [] := List.length_pos_iff.mp (Nat.lt_of_lt_of_le hw hle)
  have hpadded := padded_ofDigitChars hds hne
  by_cases hlen : ds.length = width
  · rw [← hlen, hpadded]
  · have hfirst : (padded 10 ds.length (Nat.ofDigitChars 10 ds 0)).head? ≠ some '0' := by
      rw [hpadded]
      exact fun h => hlen (hzero h)
    have hdigits : ds = Nat.toDigits 10 (Nat.ofDigitChars 10 ds 0) :=
      hpadded.symm.trans (padded_eq_toDigits hfirst)
    have hnone : width - (Nat.toDigits 10 (Nat.ofDigitChars 10 ds 0)).length = 0 := by
      rw [← hdigits]
      omega
    rw [padded, hnone, ← hdigits]
    rfl

end Digits

/-! ## Where the number begins -/

namespace Code

/-- The digits at the end of a text, as many as there are. -/
def lastDigits (s : String) : List Char := s.toList.rtakeWhile Char.isDigit

/-- What stands before the digits at the end of a text. -/
def beforeDigits (s : String) : String := String.ofList (s.toList.rdropWhile Char.isDigit)

/-- The family does not end in a digit. It may be empty. -/
def SetOff (c : Code) : Prop := ∀ a ∈ c.family.toList.getLast?, a.isDigit = false

/--
The text reads as the code: it ends in the digits of the number, at least four of them and with a
zero in front only if there are no more, and before them stands the family.
-/
structure ReadsAs (s : String) (c : Code) : Prop where
  family : beforeDigits s = c.family
  number : Nat.ofDigitChars 10 (lastDigits s) 0 = c.number
  four_le : 4 ≤ (lastDigits s).length
  length_eq_four : (lastDigits s).head? = some '0' → (lastDigits s).length = 4

theorem toList_text (c : Code) :
    c.text.toList = c.family.toList ++ Digits.padded 10 4 c.number := by
  rw [text, String.toList_append, String.toList_ofList]

theorem beforeDigits_append_lastDigits (s : String) :
    beforeDigits s ++ String.ofList (lastDigits s) = s := by
  apply String.toList_injective
  rw [beforeDigits, lastDigits, String.toList_append, String.toList_ofList, String.toList_ofList,
    List.rdropWhile_append_rtakeWhile]

/-- All digits that are written for the number are at the end of the text. -/
theorem lastDigits_text (c : Code) :
    lastDigits c.text = c.family.toList.rtakeWhile Char.isDigit ++ Digits.padded 10 4 c.number := by
  rw [lastDigits, toList_text, List.rtakeWhile, List.reverse_append,
    List.takeWhile_append_of_pos fun a ha => Digits.isDigit_of_mem_padded (List.mem_reverse.mp ha),
    List.reverse_append, List.reverse_reverse, List.rtakeWhile]

theorem SetOff.rtakeWhile_eq_nil {c : Code} (h : c.SetOff) :
    c.family.toList.rtakeWhile Char.isDigit = [] := by
  rw [List.rtakeWhile_eq_nil_iff]
  intro hne
  rw [h _ (List.getLast?_eq_some_getLast hne)]
  exact Bool.false_ne_true

/-- The number takes the digits at the end, and the family is what stands before. -/
theorem SetOff.split {c : Code} (h : c.SetOff) :
    lastDigits c.text = Digits.padded 10 4 c.number ∧ beforeDigits c.text = c.family := by
  have hlast : lastDigits c.text = Digits.padded 10 4 c.number := by
    rw [lastDigits_text, h.rtakeWhile_eq_nil, List.nil_append]
  refine ⟨hlast, ?_⟩
  have hsplit := beforeDigits_append_lastDigits c.text
  rw [hlast, text] at hsplit
  exact (String.append_left_inj _).mp hsplit

theorem SetOff.readsAs_text {c : Code} (h : c.SetOff) : ReadsAs c.text c := by
  obtain ⟨hlast, hbefore⟩ := h.split
  have hfour : 4 ≤ (lastDigits c.text).length := by
    rw [hlast, Digits.length_padded]
    exact Nat.le_max_left _ _
  refine ⟨hbefore, ?_, hfour, fun hzero => ?_⟩
  · rw [hlast, Digits.ofDigitChars_padded]
  · by_contra hne
    rw [hlast] at hfour hne hzero
    exact Digits.head?_padded_ne_zero (by decide) (Nat.lt_of_le_of_ne hfour (Ne.symm hne)) hzero

theorem ReadsAs.text_eq {s : String} {c : Code} (h : ReadsAs s c) : c.text = s := by
  have hdigits : ∀ a ∈ lastDigits s, a.isDigit = true := fun a => List.mem_rtakeWhile_imp
  have hpadded := Digits.padded_of_length hdigits (by decide) h.four_le h.length_eq_four
  rw [text, ← h.family, ← h.number, hpadded, beforeDigits_append_lastDigits]

/--
**Codes are uniquely readable.** If its family does not end in a digit, the text of a code reads as
the code, and no other text does. So two such codes with the same text are the same.
-/
theorem text_uniquely_readable {c : Code} (hc : c.SetOff) :
    (∀ s, c.text = s ↔ ReadsAs s c) ∧
      ∀ d : Code, d.SetOff → c.text = d.text → c.family = d.family ∧ c.number = d.number := by
  refine ⟨fun s => ⟨?_, ReadsAs.text_eq⟩, fun d hd htext => ?_⟩
  · rintro rfl
    exact hc.readsAs_text
  · have hread : ReadsAs c.text d := htext ▸ hd.readsAs_text
    exact ⟨hc.readsAs_text.family.symm.trans hread.family,
      hc.readsAs_text.number.symm.trans hread.number⟩

theorem text_uniquely_readable_five_digits :
    SetOff ⟨"E", 10000⟩ ∧ SetOff ⟨"", 10000⟩ ∧ ReadsAs "E10000" ⟨"E", 10000⟩ ∧
      text ⟨"E", 10000⟩ ≠ text ⟨"", 10000⟩ := by
  have hfamily : SetOff ⟨"E", 10000⟩ := by simp [SetOff]
  have hempty : SetOff ⟨"", 10000⟩ := by simp [SetOff]
  obtain ⟨hreads, hunique⟩ := text_uniquely_readable hfamily
  refine ⟨hfamily, hempty, (hreads "E10000").mp (by decide), fun htext => ?_⟩
  exact absurd (hunique _ hempty htext).1 (by decide)

-- behind a family that ends in a digit it cannot be told where the number begins
example : text ⟨"E", 10000⟩ = text ⟨"E1", 0⟩ := by decide

end Code

end Lox
