import Lox.Cursor.Basic

/-!
# A cursor as two lists of characters

A cursor splits the characters of its text into those that have been read, `consumed`, and those
that are left, `rest`. Here each operation is described through these two lists, so that nothing
about scanning has to speak of bytes.
-/

namespace Lox.Cursor

variable {source : String}

/-! ## The two ends -/

@[simp] theorem rest_start (source : String) : (start source).rest = source.toList := by
  rw [rest, start, source.startPos.splits.eq_right source.splits_startPos]

@[simp] theorem consumed_start (source : String) : (start source).consumed = [] := by
  rw [consumed, start, source.startPos.splits.eq_left source.splits_startPos]
  rfl

/-- The position is the number of bytes of what has been read. -/
theorem position_eq (c : Cursor source) :
    c.position = (String.ofList c.consumed).utf8ByteSize := by
  rw [consumed, String.ofList_toList, position, c.pos.splits.offset_eq_rawEndPos]
  simp

theorem position_of_consumed_eq {c d : Cursor source} {s : List Char}
    (h : d.consumed = c.consumed ++ s) :
    d.position = c.position + (String.ofList s).utf8ByteSize := by
  rw [c.position_eq, d.position_eq, h, String.ofList_append, String.utf8ByteSize_append]

theorem position_of_next? {c d : Cursor source} {a : Char} (h : c.next? = some (a, d)) :
    d.position = c.position + a.utf8Size := by
  rw [position_of_consumed_eq (consumed_of_next?_eq_some h)]
  simp

theorem atEnd_iff {c : Cursor source} : c.atEnd = true ↔ c.rest = [] := by
  rw [← next?_eq_none_iff, atEnd, decide_eq_true_eq, next?]
  split
  · next h => simp [h]
  · next h => simp [h]

theorem atEnd_of_next?_eq_none {c : Cursor source} (h : c.next? = none) : c.atEnd = true :=
  atEnd_iff.mpr (next?_eq_none_iff.mp h)

theorem not_atEnd_of_next? {c d : Cursor source} {a : Char} (h : c.next? = some (a, d)) :
    ¬ c.atEnd = true := by
  rw [atEnd_iff, rest_of_next?_eq_some h]
  simp

/-! ## Looking and reading -/

theorem exists_next?_of_rest {c : Cursor source} {a : Char} {as : List Char}
    (h : c.rest = a :: as) : ∃ d, c.next? = some (a, d) ∧ d.rest = as := by
  cases hn : c.next? with
  | none =>
    rw [next?_eq_none_iff.1 hn] at h
    simp at h
  | some r =>
    obtain ⟨b, d⟩ := r
    have hb := rest_of_next?_eq_some hn
    rw [h] at hb
    obtain ⟨rfl, hd⟩ := List.cons.inj hb
    exact ⟨d, rfl, hd.symm⟩

theorem current_eq (c : Cursor source) : c.current = c.rest.head?.getD nothing := by
  have hget : c.pos.get? = c.next?.map Prod.fst := by
    unfold next? String.Pos.get? String.Slice.Pos.get?
    by_cases h : c.pos = source.endPos
    · simp [h]
    · have hs : c.pos.toSlice ≠ source.toSlice.endPos :=
        ne_of_apply_ne String.Pos.ofToSlice (by simp [h])
      simp only [h, hs, dite_false, Option.map_some]
      rfl
  rw [current, hget]
  cases hn : c.next? with
  | none => rw [next?_eq_none_iff.1 hn]; rfl
  | some r => rw [rest_of_next?_eq_some (a := r.1) (d := r.2) hn]; rfl

theorem advance_of_rest_nil {c : Cursor source} (h : c.rest = []) : c.advance = (nothing, c) := by
  rw [advance, next?_eq_none_iff.2 h]
  rfl

theorem advance_of_next? {c d : Cursor source} {a : Char} (h : c.next? = some (a, d)) :
    c.advance = (a, d) := by
  rw [advance, h]
  rfl

theorem matchChar_of_rest_nil {c : Cursor source} (a : Char) (h : c.rest = []) :
    c.matchChar a = (false, c) := by
  rw [matchChar, next?_eq_none_iff.2 h]

theorem matchChar_of_next? {c d : Cursor source} {a : Char} (h : c.next? = some (a, d)) :
    c.matchChar a = (true, d) := by
  rw [matchChar, h]
  exact if_pos rfl

theorem matchChar_of_ne {c d : Cursor source} {a b : Char} (h : c.next? = some (a, d))
    (hne : a ≠ b) : c.matchChar b = (false, c) := by
  rw [matchChar, h]
  exact if_neg hne

/-! ## Pieces of the text -/

theorem copy_sliceTo_append_extract {p q : source.Pos} (h : p ≤ q) :
    (source.sliceTo p).copy ++ source.extract p q = (source.sliceTo q).copy := by
  have hp : p.offset.byteIdx ≤ q.offset.byteIdx := h
  apply String.toByteArray_inj.1
  simp only [String.toByteArray_append, String.Slice.toByteArray_copy, String.toByteArray_extract]
  simp [Nat.max_eq_right hp]

/-- The text up to a cursor is the text up to an earlier one and the text between the two. -/
theorem consumed_append_textFrom {b c : Cursor source} (h : b.pos ≤ c.pos) :
    b.consumed ++ (c.textFrom b.pos).toList = c.consumed := by
  rw [consumed, consumed, textFrom, ← String.toList_append, copy_sliceTo_append_extract h]

theorem textFrom_of_consumed_eq {b c : Cursor source} {s : List Char} (h : b.pos ≤ c.pos)
    (hs : c.consumed = b.consumed ++ s) : c.textFrom b.pos = String.ofList s := by
  have htext := consumed_append_textFrom h
  rw [hs] at htext
  rw [← List.append_cancel_left htext, String.ofList_toList]

theorem toList_remaining (c : Cursor source) : c.remaining.toList = c.rest := by
  rw [remaining, rest]
  congr 1
  apply String.toByteArray_inj.1
  simp [String.Slice.toByteArray_copy, String.toByteArray_extract]

/-- The place of a cursor is found again from its byte offset. -/
theorem pos?_position (c : Cursor source) : source.pos? ⟨c.position⟩ = some c.pos := by
  have hv : String.Pos.Raw.isValidForSlice source.toSlice c.pos.offset = true :=
    String.Pos.Raw.isValidForSlice_eq_true_iff.2 c.pos.isValid.toSlice
  rw [String.pos?, String.Slice.pos?, position, dif_pos hv]
  rfl

/-- Every text between a cursor and one that is reached from it can be asked for. -/
theorem sliceFrom?_position {b c : Cursor source} (h : b.pos ≤ c.pos) :
    c.sliceFrom? b.position = some (c.textFrom b.pos) := by
  rw [sliceFrom?, b.pos?_position]
  exact if_pos h

end Lox.Cursor
