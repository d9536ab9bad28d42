import Lox.Cursor.Bytes
import Mathlib.Data.List.Basic

/-!
# A byte below 128 is a character

In the UTF-8 form of a text every character below 128 is one byte, itself, and no byte of any other
character is below 128, be it the first one or a later one. So a byte below 128 says by itself that
a character starts there, and which.
-/

namespace Lox

/-! ## One character -/

theorem utf8Size_eq_one_iff {a : Char} : a.utf8Size = 1 ↔ a.toNat < 128 := by
  rw [Char.utf8Size_eq_one_iff, UInt32.le_iff_toNat_le]
  exact Nat.lt_succ_iff.symm

theorem utf8EncodeChar_of_lt {a : Char} (h : a.toNat < 128) :
    ∃ b, String.utf8EncodeChar a = [b] ∧ b < 128 ∧ Char.ofUInt8 b = a := by
  have hb : a.val.toUInt8.toNat = a.toNat % 2 ^ 8 := UInt32.toNat_toUInt8 _
  refine ⟨a.val.toUInt8, String.utf8EncodeChar_eq_singleton (utf8Size_eq_one_iff.mpr h), ?_, ?_⟩
  · rw [UInt8.lt_iff_toNat_lt, hb]
    exact Nat.lt_of_le_of_lt (Nat.mod_le _ _) h
  · apply Char.ext
    apply UInt32.toNat_inj.mp
    show a.val.toUInt8.toNat = a.toNat
    omega

/-- No byte of a longer character is below 128. -/
theorem le_of_mem_utf8EncodeChar {a : Char} (h : 128 ≤ a.toNat) {b : UInt8}
    (hb : b ∈ String.utf8EncodeChar a) : 128 ≤ b := by
  have hmarked : ∀ m k, 128 ≤ k → m + k < 256 → 128 ≤ UInt8.ofNat (m + k) := by
    intro m k hk hm
    rw [UInt8.le_iff_toNat_le, UInt8.toNat_ofNat', Nat.mod_eq_of_lt hm]
    exact Nat.le_trans hk (Nat.le_add_left k m)
  have hlong : ¬ a.val.toNat ≤ 127 := Nat.not_le.mpr h
  unfold String.utf8EncodeChar at hb
  dsimp only at hb
  rw [if_neg hlong] at hb
  -- each byte is a mark of at least 128 and the bits that it has room for
  split at hb
  · simp only [List.mem_cons, List.not_mem_nil, or_false] at hb
    rcases hb with rfl | rfl <;> exact hmarked _ _ (by decide) (by omega)
  · split at hb
    · simp only [List.mem_cons, List.not_mem_nil, or_false] at hb
      rcases hb with rfl | rfl | rfl <;> exact hmarked _ _ (by decide) (by omega)
    · simp only [List.mem_cons, List.not_mem_nil, or_false] at hb
      rcases hb with rfl | rfl | rfl | rfl <;> exact hmarked _ _ (by decide) (by omega)

theorem ofUInt8_eq_lineFeed_iff {b : UInt8} : Char.ofUInt8 b = '\n' ↔ b = '\n'.val.toUInt8 := by
  constructor
  · intro h
    have hval : b.toUInt32 = '\n'.val := congrArg Char.val h
    rw [← hval]
    simp
  · rintro rfl
    rfl

/-! ## The bytes of a text -/

namespace Bytes

theorem ofText_eq_flatMap (s : String) : ofText s = s.toList.flatMap String.utf8EncodeChar := by
  have h : s.toByteArray = s.toList.utf8Encode := by
    rw [← String.toByteArray_ofList, String.ofList_toList]
  rw [ofText, h]
  simp [List.utf8Encode]

theorem utf8ByteSize_ofList (s : List Char) :
    (String.ofList s).utf8ByteSize = (s.flatMap String.utf8EncodeChar).length := by
  have h := ofText_eq_flatMap (String.ofList s)
  rw [String.toList_ofList] at h
  rw [← h, ofText, Array.length_toList]
  rfl

theorem utf8ByteSize_ofList_cons (a : Char) (s : List Char) :
    (String.ofList (a :: s)).utf8ByteSize = a.utf8Size + (String.ofList s).utf8ByteSize := by
  rw [utf8ByteSize_ofList, List.flatMap_cons, List.length_append, String.length_utf8EncodeChar,
    utf8ByteSize_ofList]

theorem byteAt?_eq (s : String) (i : Nat) :
    byteAt? s i = (s.toList.flatMap String.utf8EncodeChar)[i]? := by
  rw [byteAt?, ← ofText_eq_flatMap, ofText, Array.getElem?_toList]

theorem byteAt?_eq_none_iff {s : String} {i : Nat} : byteAt? s i = none ↔ s.utf8ByteSize ≤ i := by
  rw [byteAt?, Array.getElem?_eq_none_iff]
  rfl

/-- A byte below 128 is a character, wherever it stands. -/
theorem exists_append_of_lt {s : List Char} {i : Nat} {b : UInt8}
    (h : (s.flatMap String.utf8EncodeChar)[i]? = some b) (hb : b < 128) :
    ∃ p q, s = p ++ Char.ofUInt8 b :: q ∧ (String.ofList p).utf8ByteSize = i := by
  induction s generalizing i with
  | nil => exact absurd h (by simp)
  | cons a s ih =>
    rw [List.flatMap_cons] at h
    by_cases hi : i < (String.utf8EncodeChar a).length
    · -- the byte belongs to the first character, which then has no other
      rw [List.getElem?_append_left hi] at h
      have ha : a.toNat < 128 := by
        by_contra hlong
        have hge := le_of_mem_utf8EncodeChar (Nat.not_lt.mp hlong) (List.mem_of_getElem? h)
        exact absurd hb (UInt8.not_lt.mpr hge)
      obtain ⟨b', hb', -, hchar⟩ := utf8EncodeChar_of_lt ha
      rw [hb'] at h hi
      obtain rfl : i = 0 := Nat.lt_one_iff.mp hi
      obtain rfl := Option.some.inj h
      exact ⟨[], s, by rw [hchar]; rfl, rfl⟩
    · have hi := Nat.not_lt.mp hi
      rw [List.getElem?_append_right hi] at h
      obtain ⟨p, q, rfl, hp⟩ := ih h
      refine ⟨a :: p, q, rfl, ?_⟩
      rw [utf8ByteSize_ofList_cons, hp, ← String.length_utf8EncodeChar]
      omega

/-- Every byte of a text belongs to one of its characters. -/
theorem exists_append_around (s : List Char) (i : Nat) :
    (String.ofList s).utf8ByteSize ≤ i ∨ ∃ p a q, s = p ++ a :: q ∧
      (String.ofList p).utf8ByteSize ≤ i ∧ i < (String.ofList p).utf8ByteSize + a.utf8Size := by
  induction s generalizing i with
  | nil => exact .inl (Nat.zero_le i)
  | cons a s ih =>
    rw [utf8ByteSize_ofList_cons]
    by_cases hi : i < a.utf8Size
    · exact .inr ⟨[], a, s, rfl, Nat.zero_le i, Nat.lt_of_lt_of_le hi (Nat.le_add_left _ _)⟩
    · rcases ih (i - a.utf8Size) with hle | ⟨p, b, q, rfl, hp, hb⟩
      · exact .inl (by omega)
      · refine .inr ⟨a :: p, b, q, rfl, ?_⟩
        rw [utf8ByteSize_ofList_cons]
        omega

end Bytes

end Lox
