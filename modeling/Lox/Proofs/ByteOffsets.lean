import Lox.Proofs.ByteCursor

/-!
# What there is at a byte

At a byte of a text a character starts, or one has started before and goes on, or the text has ended
before it. Which of these it is decides what a cursor sees so many bytes ahead, and whether a text
can be cut off from there on. This holds for a cursor that counts bytes, wherever questions have led
it, since they lead it to offsets of places only, even if some of them have halted.
-/

namespace Lox

open Bytes

/-! ## Bytes and characters -/

/-- The characters before byte `i` of a text are `p`, and those from there on are `q`. -/
structure SplitsAt (source : String) (i : Nat) (p q : List Char) : Prop where
  toList_eq : source.toList = p ++ q
  size_eq : (String.ofList p).utf8ByteSize = i

/-- Byte `i` is between two characters, or at one of the two ends. -/
def IsBoundary (source : String) (i : Nat) : Prop := ∃ p q, SplitsAt source i p q

/-- The character `a` starts at byte `i`. -/
def StartsAt (source : String) (i : Nat) (a : Char) : Prop := ∃ p q, SplitsAt source i p (a :: q)

/-- Byte `i` belongs to a character that has started before it. -/
def IsInside (source : String) (i : Nat) : Prop :=
  ∃ j a, StartsAt source j a ∧ j < i ∧ i < j + a.utf8Size

variable {source : String} {i : Nat}

theorem splitsAt_position (c : Cursor source) : SplitsAt source c.position c.consumed c.rest :=
  ⟨c.consumed_append_rest.symm, c.position_eq.symm⟩

theorem SplitsAt.exists_cursor {p q : List Char} (h : SplitsAt source i p q) :
    ∃ c : Cursor source, c.position = i ∧ c.consumed = p ∧ c.rest = q := by
  obtain ⟨c, hp, hq⟩ := Cursor.exists_of_append h.toList_eq
  exact ⟨c, by rw [c.position_eq, hp, h.size_eq], hp, hq⟩

theorem isBoundary_iff : IsBoundary source i ↔ ∃ c : Cursor source, c.position = i := by
  constructor
  · rintro ⟨p, q, h⟩
    obtain ⟨c, hc, -, -⟩ := h.exists_cursor
    exact ⟨c, hc⟩
  · rintro ⟨c, rfl⟩
    exact ⟨c.consumed, c.rest, splitsAt_position c⟩

theorem startsAt_iff {a : Char} :
    StartsAt source i a ↔ ∃ c : Cursor source, c.position = i ∧ c.rest.head? = some a := by
  constructor
  · rintro ⟨p, q, h⟩
    obtain ⟨c, hc, -, hrest⟩ := h.exists_cursor
    exact ⟨c, hc, by rw [hrest, List.head?_cons]⟩
  · rintro ⟨c, rfl, hhead⟩
    obtain ⟨q, hrest⟩ := List.head?_eq_some_iff.mp hhead
    exact ⟨c.consumed, q, hrest ▸ splitsAt_position c⟩

/-- All the bytes of a character come before the next place. -/
theorem StartsAt.add_utf8Size_le {j : Nat} {a : Char} (h : StartsAt source j a)
    (hi : IsBoundary source i) (hlt : j < i) : j + a.utf8Size ≤ i := by
  obtain ⟨c, rfl, hhead⟩ := startsAt_iff.mp h
  obtain ⟨d, rfl⟩ := isBoundary_iff.mp hi
  obtain ⟨s, hconsumed, hrest⟩ := Cursor.exists_between (Nat.le_of_lt hlt)
  cases s with
  | nil =>
    rw [List.append_nil] at hconsumed
    rw [c.position_eq, d.position_eq, hconsumed] at hlt
    exact absurd hlt (Nat.lt_irrefl _)
  | cons b s =>
    -- what is between the two begins with `a`
    rw [hrest] at hhead
    obtain rfl : b = a := Option.some.inj hhead
    rw [Cursor.position_of_consumed_eq hconsumed, utf8ByteSize_ofList_cons]
    omega

/-- No character starts at a byte that is past the end or inside one, and only there. -/
theorem not_exists_startsAt_iff :
    (¬ ∃ a, StartsAt source i a) ↔ source.utf8ByteSize ≤ i ∨ IsInside source i := by
  constructor
  · intro hnone
    rcases exists_append_around source.toList i with hend | ⟨p, a, q, htext, hp, ha⟩
    · rw [String.ofList_toList] at hend
      exact .inl hend
    · have hstarts : StartsAt source (String.ofList p).utf8ByteSize a := ⟨p, q, htext, rfl⟩
      rcases Nat.eq_or_lt_of_le hp with rfl | hlt
      · exact absurd ⟨a, hstarts⟩ hnone
      · exact .inr ⟨_, a, hstarts, hlt, ha⟩
  · rintro hout ⟨a, hstarts⟩
    rcases hout with hend | ⟨j, b, hb, hlt, hgt⟩
    · obtain ⟨c, rfl, hhead⟩ := startsAt_iff.mp hstarts
      rw [Cursor.rest_eq_nil_iff_le.mpr hend] at hhead
      exact absurd hhead (by simp)
    · obtain ⟨p, q, hsplit⟩ := hstarts
      exact Nat.not_le.mpr hgt (hb.add_utf8Size_le ⟨p, a :: q, hsplit⟩ hlt)

namespace ByteCursor

/-! ## What is decoded at a byte -/

theorem decode_of_startsAt {a : Char} (h : StartsAt source i a) : decode source i = a := by
  obtain ⟨c, rfl, hhead⟩ := startsAt_iff.mp h
  rw [decode_position, c.current_eq, hhead]
  rfl

theorem decode_of_not_startsAt (h : ¬ ∃ a, StartsAt source i a) :
    decode source i = Cursor.nothing := by
  cases hp : source.pos? ⟨i⟩ with
  | none => exact decode_of_pos?_eq_none hp
  | some p =>
    obtain ⟨c, -, rfl⟩ := Cursor.exists_position_of_pos? hp
    cases hhead : c.rest.head? with
    | none => rw [decode_position, c.current_eq, hhead]; rfl
    | some a => exact absurd ⟨a, startsAt_iff.mpr ⟨c, rfl, hhead⟩⟩ h

/-! ## Wherever questions lead -/

/-- The cursor after a sequence of questions. -/
def after (b : ByteCursor source) (rs : List Cursor.Request) : ByteCursor source :=
  rs.foldl (fun b r => (b.ask r).2) b

/-- A line feed that cannot be counted has been read all the same. -/
theorem exists_afterHalt_eq_toByteCursor (c : Cursor source) :
    ∃ d : Cursor source, c.toByteCursor.afterHalt .advance = d.toByteCursor ∧
      d.line = c.line := by
  rw [afterHalt, Cursor.position_toByteCursor]
  cases hn : c.next? with
  | none =>
    have hle := Cursor.rest_eq_nil_iff_le.mp (Cursor.next?_eq_none_iff.mp hn)
    exact ⟨c, by rw [byteAt?_eq_none_iff.mpr hle], rfl⟩
  | some r =>
    obtain ⟨a, d⟩ := r
    obtain ⟨b, hb, hshort, -⟩ := Cursor.byteAt?_position (Cursor.rest_of_next?_eq_some hn)
    rw [hb]
    dsimp only
    split
    · next hlt =>
      have hsize := utf8Size_eq_one_iff.mpr (hshort hlt).2
      refine ⟨⟨d.pos, c.line⟩, ?_, rfl⟩
      show (⟨c.position + 1, c.line⟩ : ByteCursor source) = ⟨d.position, c.line⟩
      rw [Cursor.position_of_next? hn, hsize]
    · exact ⟨c, rfl, rfl⟩

/-- From a place a question leads to a place, even if it halts. -/
theorem exists_ask_eq_toByteCursor {c : Cursor source} (hc : c.line ≤ lastLine)
    (r : Cursor.Request) :
    ∃ d : Cursor source, (c.toByteCursor.ask r).2 = d.toByteCursor ∧ d.line ≤ lastLine := by
  obtain ⟨e, he, hline⟩ := exists_afterHalt_eq_toByteCursor c
  have hle : e.line ≤ lastLine := hline ▸ hc
  cases r with
  | advance =>
    rw [ask, advance_toByteCursor hc]
    by_cases hd : c.advance.2.line ≤ lastLine
    · exact ⟨c.advance.2, by rw [Cursor.ifNumbered_of_le hd]; rfl, hd⟩
    · exact ⟨e, by rw [Cursor.ifNumbered_of_not_le hd]; exact he, hle⟩
  | matchChar expected =>
    rw [ask, matchChar_toByteCursor hc]
    by_cases hd : (c.matchChar expected).2.line ≤ lastLine
    · exact ⟨(c.matchChar expected).2, by rw [Cursor.ifNumbered_of_le hd]; rfl, hd⟩
    · exact ⟨e, by rw [Cursor.ifNumbered_of_not_le hd]; exact he, hle⟩
  | sliceFrom offset =>
    rw [ask]
    cases c.toByteCursor.sliceFrom? offset with
    | some s => exact ⟨c, rfl, hc⟩
    | none => exact ⟨c, rfl, hc⟩
  | current => exact ⟨c, rfl, hc⟩
  | peek offset => exact ⟨c, rfl, hc⟩
  | remaining => exact ⟨c, by rw [ask, remaining?_toByteCursor]; rfl, hc⟩
  | source => exact ⟨c, rfl, hc⟩

/-- **Questions lead to places.** -/
theorem exists_after_eq_toByteCursor {c : Cursor source} (hc : c.line ≤ lastLine)
    (rs : List Cursor.Request) :
    ∃ d : Cursor source, c.toByteCursor.after rs = d.toByteCursor := by
  induction rs generalizing c with
  | nil => exact ⟨c, rfl⟩
  | cons r rs ih =>
    obtain ⟨d, hd, hline⟩ := exists_ask_eq_toByteCursor hc r
    rw [after, List.foldl_cons, hd]
    exact ih hline

/-! ## What can be observed -/

/-- What a cursor observes `n` bytes ahead, and from byte `n` up to where it is. -/
structure Observes (b : ByteCursor source) (n : Nat) : Prop where
  peek_of_startsAt : ∀ a, StartsAt source (b.position + n) a → b.peek n = a
  peek_of_not_startsAt :
    (¬ ∃ a, StartsAt source (b.position + n) a) → b.peek n = Cursor.nothing
  /-- One byte tells the same as decoding. -/
  peek_eq_decode : b.peek n = decode source (b.position + n)
  isSome_sliceFrom? : (b.sliceFrom? n).isSome ↔ n ≤ b.position ∧ IsBoundary source n
  /-- What comes before byte `n`, what is cut off and what is left make up the text. -/
  append_eq : ∀ s, b.sliceFrom? n = some s →
    ∃ before left, before.utf8ByteSize = n ∧ b.remaining? = some left ∧ before ++ s ++ left = source

theorem isSome_sliceFrom?_iff (c : Cursor source) (n : Nat) :
    (c.sliceFrom? n).isSome ↔ n ≤ c.position ∧ IsBoundary source n := by
  rw [isBoundary_iff]
  constructor
  · intro h
    rw [Cursor.sliceFrom?] at h
    cases hp : source.pos? ⟨n⟩ with
    | none => rw [hp] at h; exact absurd h (by simp)
    | some p =>
      obtain ⟨d, rfl, rfl⟩ := Cursor.exists_position_of_pos? hp
      rw [hp] at h
      dsimp only at h
      split at h
      · next hle => exact ⟨Cursor.pos_le_iff.mp hle, d, rfl⟩
      · exact absurd h (by simp)
  · rintro ⟨hle, d, rfl⟩
    rw [Cursor.sliceFrom?_position (Cursor.pos_le_iff.mpr hle)]
    rfl

theorem observes_toByteCursor (c : Cursor source) (n : Nat) : c.toByteCursor.Observes n where
  peek_of_startsAt a h := by rw [ByteCursor.peek_eq_decode, decode_of_startsAt h]
  peek_of_not_startsAt h := by rw [ByteCursor.peek_eq_decode, decode_of_not_startsAt h]
  peek_eq_decode := ByteCursor.peek_eq_decode _ n
  isSome_sliceFrom? := by rw [sliceFrom?_toByteCursor, isSome_sliceFrom?_iff]; rfl
  append_eq s hs := by
    rw [sliceFrom?_toByteCursor] at hs
    obtain ⟨hle, hn⟩ := (isSome_sliceFrom?_iff c n).mp (by rw [hs]; rfl)
    obtain ⟨d, rfl⟩ := isBoundary_iff.mp hn
    rw [Cursor.sliceFrom?_position (Cursor.pos_le_iff.mpr hle)] at hs
    refine ⟨String.ofList d.consumed, c.remaining, d.position_eq.symm,
      remaining?_toByteCursor c, ?_⟩
    apply String.toList_injective
    rw [String.toList_append, String.toList_append, String.toList_ofList, ← Option.some.inj hs,
      Cursor.consumed_append_textFrom (Cursor.pos_le_iff.mpr hle), c.toList_remaining,
      c.consumed_append_rest]

/--
**What a cursor observes at a byte**, after any questions. So many bytes ahead it sees the character
that starts there, and there is one unless the text has ended or a character goes on. A text is cut
off from every place that is not ahead, and from nowhere else. All this is what the cursor observes
that stands at the place.
-/
theorem observes_after (source : String) (rs : List Cursor.Request) (n : Nat) :
    ((start source).after rs).Observes n ∧
      ((¬ ∃ a, StartsAt source (((start source).after rs).position + n) a) ↔
        source.utf8ByteSize ≤ ((start source).after rs).position + n ∨
          IsInside source (((start source).after rs).position + n)) ∧
      ∃ c : Cursor source, (start source).after rs = c.toByteCursor ∧
        ((start source).after rs).peek n = c.peek n ∧
        ((start source).after rs).sliceFrom? n = c.sliceFrom? n := by
  rw [start_eq_toByteCursor]
  obtain ⟨c, hc⟩ := exists_after_eq_toByteCursor (Cursor.line_start_le source) rs
  rw [hc]
  exact ⟨observes_toByteCursor c n, not_exists_startsAt_iff, c, rfl, peek_toByteCursor c n,
    sliceFrom?_toByteCursor c n⟩

end ByteCursor

end Lox
