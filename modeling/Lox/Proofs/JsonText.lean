import Lox.Proofs.Grammar
import Lox.Proofs.Numerals

/-!
# A written JSON text is read back

Every value is the value of its text. A value is written in one of the ways in which it can be
spelled: without blanks, with a sign before every power of ten, and with as few escapes as there can
be.
-/

namespace Lox.Json

namespace Number

theorem exponent_exponentChars (e : Option Int) : Exponent e (Numeral.exponentChars e) := by
  cases e with
  | none => exact .absent
  | some e =>
    have hdigits : IsDigits (Nat.toDigits 10 e.natAbs) :=
      ⟨Nat.toDigits_ne_nil, fun c => Nat.isDigit_of_mem_toDigits (by decide) (by decide)⟩
    have hvalue : Nat.ofDigitChars 10 (Nat.toDigits 10 e.natAbs) 0 = e.natAbs :=
      Nat.ofDigitChars_ten_toDigits
    refine .present (.inl rfl) ?_
    by_cases hneg : e < 0
    · have hpower := Power.minus hdigits
      have he : -(e.natAbs : Int) = e := by omega
      rw [hvalue, he] at hpower
      rw [if_pos hneg]
      exact hpower
    · have hpower := Power.plus hdigits
      have he : (e.natAbs : Int) = e := by omega
      rw [hvalue, he] at hpower
      rw [if_neg hneg]
      exact hpower

theorem whole_whole (n : Numeral) : Whole n.whole := by
  rcases n.whole_eq_zero_or with h | h
  · rw [h]
    exact .zero
  · exact .digits ⟨n.whole_ne_nil, fun _ => Numeral.isDigit_of_mem_whole⟩ h

theorem fraction_fractionChars (n : Numeral) : Fraction n.fraction n.fractionChars := by
  rw [Numeral.fractionChars]
  by_cases hz : n.places = 0
  · rw [if_pos hz, List.eq_nil_of_length_eq_zero (n.length_fraction.trans hz)]
    exact .absent
  · rw [if_neg hz]
    exact .present ⟨Numeral.fraction_ne_nil hz, fun _ => Numeral.isDigit_of_mem_fraction⟩

theorem spelled_chars (n : Numeral) : Spelled n n.chars := by
  have h := Spelled.mk n.negative (whole_whole n) (fraction_fractionChars n)
    (exponent_exponentChars n.exponent)
  rw [Numeral.ofParts_whole_fraction, ← Numeral.chars_eq] at h
  exact h

end Number

namespace Quoted

/-- The item as which a character is written. -/
def itemOf (c : Char) : Item :=
  if c < ' ' ∧ c ∉ ['\x08', '\x0c', '\n', '\r', '\t'] then .unit c.toNat else .char c

theorem toNat_lt_of_lt_space {c : Char} (h : c < ' ') : c.toNat < 32 := by
  have hval : c.val < (' ' : Char).val := h
  exact UInt32.lt_iff_toNat_lt.mp hval

theorem spelled_padded {n : Nat} (h : n < 32) :
    (Item.unit n).Spelled ('\\' :: 'u' :: Digits.padded 16 4 n) := by
  have hall : ∀ n < 32, Digits.padded 16 4 n =
      ['0', '0', Nat.digitChar (n / 16), Nat.digitChar (n % 16)] := by decide
  have hzero : IsHex 0 '0' := ⟨by decide, .inl rfl⟩
  have hhigh : IsHex (n / 16) (Nat.digitChar (n / 16)) := ⟨by omega, .inl rfl⟩
  have hlow : IsHex (n % 16) (Nat.digitChar (n % 16)) := ⟨by omega, .inl rfl⟩
  have hitem := Item.Spelled.digits hzero hzero hhigh hlow
  have hsum : 16 * (16 * (16 * 0 + 0) + n / 16) + n % 16 = n := by omega
  rw [hsum] at hitem
  rw [hall n h]
  exact hitem

theorem spelled_escaped (c : Char) : (itemOf c).Spelled (escaped c) := by
  by_cases hshort : c ∈ ['"', '\\', '\x08', '\x0c', '\n', '\r', '\t']
  · have hcases : c = '"' ∨ c = '\\' ∨ c = '\x08' ∨ c = '\x0c' ∨ c = '\n' ∨ c = '\r' ∨ c = '\t' := by
      simpa using hshort
    rcases hcases with rfl | rfl | rfl | rfl | rfl | rfl | rfl <;> exact .short rfl
  · simp only [List.mem_cons, List.not_mem_nil, or_false, not_or] at hshort
    obtain ⟨hquote, hback, h8, hc, hn, hr, ht⟩ := hshort
    rw [escaped, if_neg hquote, if_neg hback, if_neg h8, if_neg hc, if_neg hn, if_neg hr, if_neg ht]
    by_cases hspace : c < ' '
    · have hitem : itemOf c = .unit c.toNat := if_pos ⟨hspace, by simp [h8, hc, hn, hr, ht]⟩
      rw [if_pos hspace, hitem]
      exact spelled_padded (toNat_lt_of_lt_space hspace)
    · have hitem : itemOf c = .char c := if_neg fun h => hspace h.1
      rw [if_neg hspace, hitem]
      exact .raw hspace hquote hback

theorem itemsSpelled_flatMap (cs : List Char) :
    ItemsSpelled (cs.map itemOf) (cs.flatMap escaped) := by
  induction cs with
  | nil => exact .nil
  | cons c cs ih =>
    rw [List.map_cons, List.flatMap_cons]
    exact .cons (spelled_escaped c) ih

theorem denotes_map (cs : List Char) : Denotes (cs.map itemOf) cs := by
  induction cs with
  | nil => exact .nil
  | cons c cs ih =>
    rw [List.map_cons, itemOf]
    split
    · exact .unit ih
    · exact .char ih

theorem spelled_chars (s : String) : Spelled (some s) (chars s) := by
  have h := Spelled.text (itemsSpelled_flatMap s.toList) (denotes_map s.toList)
  rwa [String.ofList_toList] at h

/-- A high surrogate without a partner denotes no characters. -/
theorem spelled_lone : Spelled none lone := by
  have hitem : (Item.unit 0xD800).Spelled ['\\', 'u', 'd', '8', '0', '0'] :=
    .digits (w := 13) (x := 8) (y := 0) (z := 0) ⟨by decide, .inl rfl⟩ ⟨by decide, .inl rfl⟩
      ⟨by decide, .inl rfl⟩ ⟨by decide, .inl rfl⟩
  refine .noText (.cons hitem .nil) ?_
  intro cs h
  generalize hitems : [Item.unit 0xD800] = items at h
  cases h with
  | nil => exact absurd hitems (by simp)
  | char _ => exact absurd hitems (by simp)
  | @unit c _ _ _ =>
    have hc : 0xD800 = c.toNat := Item.unit.inj (List.cons.inj hitems).1
    have hhigh := (not_surrogate c).1
    rw [← hc] at hhigh
    exact absurd hhigh (by decide)
  | pair _ _ _ _ _ _ => exact absurd (List.cons.inj hitems).2 (by simp)

end Quoted

theorem Symbol.spelled_chars (s : Symbol) : s.Spelled s.chars := by
  cases s with
  | number n => exact .number (Number.spelled_chars n)
  | string t =>
    cases t with
    | none => exact .string Quoted.spelled_lone
    | some s => exact .string (Quoted.spelled_chars s)
  | _ => exact .mark rfl

theorem Symbol.written_flatMap (ss : List Symbol) : Written ss (ss.flatMap chars) := by
  induction ss with
  | nil => exact .nil (by simp)
  | cons s ss ih =>
    have h : Written (s :: ss) ([] ++ (s.chars ++ ss.flatMap chars)) :=
      .cons (by simp) s.spelled_chars ih
    exact h

/-- The text of a value spells it. -/
theorem spelled_compact (v : Json) : v.Spelled v.compact := by
  rw [Spelled, compact, String.toList_ofList]
  exact Symbol.written_flatMap v.symbols

/-- Every value is read back from its text. -/
theorem read?_compact (v : Json) : read? v.compact = some v := v.spelled_compact.read?

end Lox.Json
