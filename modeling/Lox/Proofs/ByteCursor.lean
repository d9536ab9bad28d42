import Lox.Proofs.Reading
import Lox.Proofs.Utf8

/-!
# Counting bytes comes to the same

A `Cursor` stands at a place of its text, a `ByteCursor` knows a number. From a number that is the
offset of a place, each operation on bytes does what the operation on places does: the byte there
tells the character or says that it must be decoded, every piece of text that is cut off exists, and
a step leads to the offset of the next place. So no operation halts, except that a piece of text
asked for from an offset may not exist, and that lines may run out of numbers.

`Cursor.toByteCursor` takes a place to its offset, and there is one lemma for each operation.
-/

namespace Lox

open Bytes

namespace Cursor

variable {source : String} {c d : Cursor source}

/-! ## Places and their offsets -/

theorem pos_le_iff : c.pos ≤ d.pos ↔ c.position ≤ d.position := Iff.rfl

/-- However the characters of a text are parted, there is a place between the two parts. -/
theorem exists_of_append {p q : List Char} (h : source.toList = p ++ q) :
    ∃ c : Cursor source, c.consumed = p ∧ c.rest = q := by
  have hs : source = String.ofList p ++ String.ofList q := by
    rw [← String.ofList_append, ← h, String.ofList_toList]
  have hsplits := String.Pos.splits_ofEqAppend hs
  refine ⟨⟨String.Pos.ofEqAppend hs, 1⟩, ?_, ?_⟩
  · rw [consumed, (String.Pos.splits _).eq_left hsplits, String.toList_ofList]
  · rw [rest, (String.Pos.splits _).eq_right hsplits, String.toList_ofList]

theorem byteIdx_of_pos?_eq_some {i : Nat} {p : source.Pos} (h : source.pos? ⟨i⟩ = some p) :
    p.offset.byteIdx = i := by
  rw [String.pos?, String.Slice.pos?] at h
  split at h
  · obtain rfl := Option.some.inj h
    rfl
  · exact absurd h (by simp)

theorem exists_position_of_pos? {i : Nat} {p : source.Pos} (h : source.pos? ⟨i⟩ = some p) :
    ∃ d : Cursor source, d.pos = p ∧ d.position = i :=
  ⟨⟨p, 1⟩, rfl, byteIdx_of_pos?_eq_some h⟩

theorem position_add_rest (c : Cursor source) :
    c.position + (String.ofList c.rest).utf8ByteSize = source.utf8ByteSize := by
  rw [c.position_eq, ← String.utf8ByteSize_append, ← String.ofList_append, c.consumed_append_rest,
    String.ofList_toList]

theorem rest_eq_nil_iff_le : c.rest = [] ↔ source.utf8ByteSize ≤ c.position := by
  have hsize := c.position_add_rest
  constructor
  · intro h
    rw [h] at hsize
    exact Nat.le_of_eq hsize.symm
  · intro h
    have hrest : (String.ofList c.rest).utf8ByteSize = 0 := by omega
    rw [String.utf8ByteSize_eq_zero_iff] at hrest
    rw [← String.toList_ofList (l := c.rest), hrest]
    rfl

/-- Between a place and a later one is what has been read at the one and is left at the other. -/
theorem exists_between {c d : Cursor source} (h : c.position ≤ d.position) :
    ∃ s, d.consumed = c.consumed ++ s ∧ c.rest = s ++ d.rest := by
  have hs := consumed_append_textFrom (pos_le_iff.mpr h)
  refine ⟨_, hs.symm, ?_⟩
  have htext := c.consumed_append_rest
  rw [← d.consumed_append_rest, ← hs, List.append_assoc] at htext
  exact List.append_cancel_left htext

theorem slice?_position (h : c.pos ≤ d.pos) :
    slice? source c.position d.position = some (d.textFrom c.pos) := by
  rw [slice?, c.pos?_position, d.pos?_position]
  exact if_pos h

/-- A place that has read the same characters and some more is ahead. -/
theorem pos_le_of_consumed_eq {s : List Char} (h : d.consumed = c.consumed ++ s) :
    c.pos ≤ d.pos := by
  rw [pos_le_iff, position_of_consumed_eq h]
  exact Nat.le_add_right _ _

theorem slice?_of_append {p s q : List Char} (h : source.toList = p ++ s ++ q) :
    slice? source (String.ofList p).utf8ByteSize (String.ofList (p ++ s)).utf8ByteSize =
      some (String.ofList s) := by
  obtain ⟨c, rfl, -⟩ := exists_of_append (h.trans (List.append_assoc p s q))
  obtain ⟨d, hd, -⟩ := exists_of_append h
  have hle := pos_le_of_consumed_eq hd
  rw [← hd, ← c.position_eq, ← d.position_eq, slice?_position hle, textFrom_of_consumed_eq hle hd]

/-! ## The bytes at a place -/

theorem tail?_position (c : Cursor source) : tail? source c.position = some c.remaining :=
  slice?_position (d := ⟨source.endPos, 1⟩) (String.Pos.le_endPos c.pos)

/-- The first byte of a character is the character, or else this is not one below 128. -/
theorem byteAt?_position {a : Char} {as : List Char} (h : c.rest = a :: as) :
    ∃ b, byteAt? source c.position = some b ∧
      (b < 128 → Char.ofUInt8 b = a ∧ a.toNat < 128) ∧ (¬ b < 128 → 128 ≤ a.toNat) := by
  have htext : source.toList = c.consumed ++ a :: as := by rw [← h, c.consumed_append_rest]
  have hindex : c.position = (c.consumed.flatMap String.utf8EncodeChar).length := by
    rw [c.position_eq, utf8ByteSize_ofList]
  -- the byte is the first one behind those of the characters that have been read
  rw [byteAt?_eq, htext, List.flatMap_append, List.flatMap_cons, hindex,
    List.getElem?_append_right (Nat.le_refl _), Nat.sub_self]
  by_cases ha : a.toNat < 128
  · obtain ⟨b, hb, hlt, hchar⟩ := utf8EncodeChar_of_lt ha
    rw [hb]
    exact ⟨b, rfl, fun _ => ⟨hchar, ha⟩, fun hge => absurd hlt hge⟩
  · have ha := Nat.not_lt.mp ha
    obtain ⟨b, bs, hb⟩ := List.exists_cons_of_length_pos
      (String.length_utf8EncodeChar a ▸ a.utf8Size_pos)
    have hge := le_of_mem_utf8EncodeChar ha (hb ▸ List.mem_cons_self)
    rw [hb]
    exact ⟨b, rfl, fun hlt => absurd hlt (UInt8.not_lt.mpr hge), fun _ => ha⟩

theorem exists_position_of_lt {i : Nat} {b : UInt8} (h : byteAt? source i = some b)
    (hb : b < 128) :
    ∃ c : Cursor source, c.position = i ∧ c.rest.head? = some (Char.ofUInt8 b) := by
  rw [byteAt?_eq] at h
  obtain ⟨p, q, htext, hp⟩ := exists_append_of_lt h hb
  obtain ⟨c, hconsumed, hrest⟩ := exists_of_append htext
  refine ⟨c, ?_, ?_⟩
  · rw [c.position_eq, hconsumed, hp]
  · rw [hrest, List.head?_cons]

theorem exists_reads_advance (c : Cursor source) : ∃ s, c.Reads c.advance.2 s := by
  cases hn : c.next? with
  | none => exact ⟨[], by rw [advance, hn]; exact .nil c⟩
  | some r => exact ⟨[r.1], by rw [advance, hn]; exact reads_of_next? hn⟩

/-- A question moves the cursor over some characters, or not at all. -/
theorem exists_reads_ask (c : Cursor source) (r : Request) : ∃ s, c.Reads (c.ask r).2 s := by
  cases r with
  | advance => exact c.exists_reads_advance
  | matchChar expected =>
    rw [ask]
    rcases c.matchChar_cases expected with ⟨d, hd, hreads⟩ | ⟨hd, -⟩
    · exact ⟨_, by rw [hd]; exact hreads⟩
    · exact ⟨[], by rw [hd]; exact .nil c⟩
  | sliceFrom offset =>
    rw [ask]
    cases c.sliceFrom? offset with
    | some s => exact ⟨[], .nil c⟩
    | none => exact ⟨[], .nil c⟩
  | current => exact ⟨[], .nil c⟩
  | peek offset => exact ⟨[], .nil c⟩
  | remaining => exact ⟨[], .nil c⟩
  | source => exact ⟨[], .nil c⟩

/-- The place and the line of a cursor, as numbers. -/
def toByteCursor (c : Cursor source) : ByteCursor source := ⟨c.position, c.line⟩

@[simp] theorem position_toByteCursor (c : Cursor source) :
    c.toByteCursor.position = c.position := rfl

@[simp] theorem line_toByteCursor (c : Cursor source) : c.toByteCursor.line = c.line := rfl

/-! ## Lines that have a number -/

/-- An answer at a place, if the line that it is on has a number. -/
def ifNumbered {α : Type} (c : Cursor source) (x : α) : Option α :=
  if c.line ≤ ByteCursor.lastLine then some x else none

theorem ifNumbered_of_le {α : Type} {x : α} (h : c.line ≤ ByteCursor.lastLine) :
    c.ifNumbered x = some x := if_pos h

theorem ifNumbered_of_not_le {α : Type} {x : α} (h : ¬ c.line ≤ ByteCursor.lastLine) :
    c.ifNumbered x = none := if_neg h

theorem ifNumbered_eq_some_iff {α : Type} {x y : α} :
    c.ifNumbered x = some y ↔ c.line ≤ ByteCursor.lastLine ∧ x = y := by
  rw [ifNumbered]
  split
  · next h => exact ⟨fun hx => ⟨h, Option.some.inj hx⟩, fun hx => congrArg some hx.2⟩
  · next h => exact ⟨fun hx => absurd hx (by simp), fun hx => absurd hx.1 h⟩

theorem map_ifNumbered {α β : Type} (f : α → β) (x : α) :
    (c.ifNumbered x).map f = c.ifNumbered (f x) := by
  rw [ifNumbered, ifNumbered]
  split
  · rfl
  · rfl

theorem line_start_le (source : String) : (start source).line ≤ ByteCursor.lastLine := by
  show 1 ≤ Nat.pow 2 32 - 1
  decide

theorem Reads.line_le {s : List Char} (h : c.Reads d s) : c.line ≤ d.line :=
  h.line_eq ▸ Nat.le_add_right _ _

/-- What goes on behind a place needs a number only for the line where it ends. -/
theorem bind_ifNumbered {α β : Type} {x : α} {y : β} {f : α → Option β}
    (hle : c.line ≤ d.line) (hf : c.line ≤ ByteCursor.lastLine → f x = d.ifNumbered y) :
    (c.ifNumbered x).bind f = d.ifNumbered y := by
  by_cases hc : c.line ≤ ByteCursor.lastLine
  · rw [ifNumbered_of_le hc, Option.bind_some, hf hc]
  · have hd : ¬ d.line ≤ ByteCursor.lastLine := fun hd => hc (Nat.le_trans hle hd)
    rw [ifNumbered_of_not_le hc, ifNumbered_of_not_le hd]
    rfl

/-- All lines up to the last one of the text have a number. -/
def LinesFit (c : Cursor source) : Prop := c.line + c.rest.count '\n' ≤ ByteCursor.lastLine

theorem linesFit_start (h : 1 + source.toList.count '\n' ≤ ByteCursor.lastLine) :
    (start source).LinesFit := by
  rw [LinesFit, rest_start]
  exact h

theorem LinesFit.line_le (h : c.LinesFit) : c.line ≤ ByteCursor.lastLine :=
  Nat.le_trans (Nat.le_add_right _ _) h

theorem Reads.linesFit {s : List Char} (h : c.Reads d s) (hc : c.LinesFit) : d.LinesFit := by
  rw [LinesFit, h.rest_eq, List.count_append] at hc
  rw [LinesFit, h.line_eq]
  omega

end Cursor

namespace ByteCursor

variable {source : String}

/-! ## Looking ahead -/

theorem decode_position (c : Cursor source) : decode source c.position = c.current := by
  rw [decode, c.tail?_position, c.current_eq, ← c.toList_remaining]
  rfl

theorem decode_of_pos?_eq_none {i : Nat} (h : source.pos? ⟨i⟩ = none) :
    decode source i = Cursor.nothing := by
  rw [decode, tail?, slice?, h]
  rfl

theorem decode_eq (source : String) (i : Nat) :
    decode source i = ((source.pos? ⟨i⟩).bind fun p => p.get?).getD Cursor.nothing := by
  cases hp : source.pos? ⟨i⟩ with
  | none => exact decode_of_pos?_eq_none hp
  | some p =>
    have hd := decode_position (⟨p, 1⟩ : Cursor source)
    rw [Cursor.position, Cursor.byteIdx_of_pos?_eq_some hp] at hd
    exact hd

theorem decode_of_le {i : Nat} (h : source.utf8ByteSize ≤ i) :
    decode source i = Cursor.nothing := by
  cases hp : source.pos? ⟨i⟩ with
  | none => exact decode_of_pos?_eq_none hp
  | some p =>
    -- the only place as far ahead is the end
    have hi : (⟨p, 1⟩ : Cursor source).position = i := Cursor.byteIdx_of_pos?_eq_some hp
    have hend : (⟨p, 1⟩ : Cursor source).rest = [] := Cursor.rest_eq_nil_iff_le.mpr (hi ▸ h)
    rw [← hi, decode_position, Cursor.current_eq, hend]
    rfl

/-- **What a byte below 128 tells is what decoding finds**, at every offset. -/
theorem peek_eq_decode (c : ByteCursor source) (n : Nat) :
    c.peek n = decode source (c.position + n) := by
  rw [peek]
  split
  · next h => rw [decode_of_le (byteAt?_eq_none_iff.mp h)]
  · next b h =>
    split
    · next hb =>
      obtain ⟨d, hd, hhead⟩ := Cursor.exists_position_of_lt h hb
      rw [← hd, decode_position, d.current_eq, hhead]
      rfl
    · rfl

variable (c : Cursor source)

theorem peek_toByteCursor (n : Nat) : c.toByteCursor.peek n = c.peek n := by
  rw [peek_eq_decode, decode_eq]
  rfl

theorem current_toByteCursor : c.toByteCursor.current = c.current := by
  rw [current, peek_eq_decode, ← decode_position]
  rfl

theorem atEnd_toByteCursor : c.toByteCursor.atEnd = c.atEnd := by
  rw [Bool.eq_iff_iff, Cursor.atEnd_iff, Cursor.rest_eq_nil_iff_le, atEnd, decide_eq_true_eq]
  rfl

/-! ## Pieces of the text -/

theorem sliceFrom?_toByteCursor (n : Nat) : c.toByteCursor.sliceFrom? n = c.sliceFrom? n := by
  rw [sliceFrom?, slice?, Cursor.position_toByteCursor, c.pos?_position, Cursor.sliceFrom?]
  cases source.pos? ⟨n⟩ with
  | none => rfl
  | some p => rfl

theorem remaining?_toByteCursor : c.toByteCursor.remaining? = some c.remaining :=
  c.tail?_position

/-! ## Moving -/

theorem lineAfter?_eq {line : Nat} (h : line ≤ lastLine) (b : UInt8) :
    lineAfter? line b =
      if Cursor.lineAfter line (Char.ofUInt8 b) ≤ lastLine then
        some (Cursor.lineAfter line (Char.ofUInt8 b))
      else none := by
  rw [lineAfter?, Cursor.lineAfter]
  by_cases hfeed : Char.ofUInt8 b = '\n'
  · rw [if_pos (ofUInt8_eq_lineFeed_iff.mp hfeed), if_pos hfeed]
    rfl
  · rw [if_neg (mt ofUInt8_eq_lineFeed_iff.mpr hfeed), if_neg hfeed, if_pos h]

variable {c}

theorem advance_of_next? {d : Cursor source} {a : Char} (h : c.next? = some (a, d))
    (hc : c.line ≤ lastLine) : c.toByteCursor.advance = d.ifNumbered (a, d.toByteCursor) := by
  have hrest := Cursor.rest_of_next?_eq_some h
  have hline := Cursor.line_of_next?_eq_some h
  have hd : d.toByteCursor = ⟨c.position + a.utf8Size, d.line⟩ := by
    rw [Cursor.toByteCursor, Cursor.position_of_next? h]
  obtain ⟨b, hb, hshort, hlong⟩ := Cursor.byteAt?_position hrest
  rw [advance, Cursor.position_toByteCursor, Cursor.line_toByteCursor, hb, hd]
  dsimp only
  split
  · next hlt =>
    obtain ⟨rfl, hsize⟩ := hshort hlt
    rw [lineAfter?_eq hc, ← hline, utf8Size_eq_one_iff.mpr hsize]
    exact Cursor.map_ifNumbered _ d.line
  · next hge =>
    -- lines are not counted here, and need not be
    have hne : a ≠ '\n' := by
      rintro rfl
      exact absurd (hlong hge) (by decide)
    rw [Cursor.lineAfter, if_neg hne] at hline
    rw [c.tail?_position, Option.map_some, c.toList_remaining, hrest,
      Cursor.ifNumbered_of_le (hline ▸ hc), hline]
    rfl

/-- A character is read as it is from the place, if the line behind it has a number. -/
theorem advance_toByteCursor (hc : c.line ≤ lastLine) :
    c.toByteCursor.advance = c.advance.2.ifNumbered (c.advance.1, c.advance.2.toByteCursor) := by
  cases hn : c.next? with
  | none =>
    have hrest := Cursor.next?_eq_none_iff.mp hn
    have hle := Cursor.rest_eq_nil_iff_le.mp hrest
    rw [advance, Cursor.position_toByteCursor, byteAt?_eq_none_iff.mpr hle,
      Cursor.advance_of_rest_nil hrest, Cursor.ifNumbered_of_le hc]
  | some r =>
    obtain ⟨a, d⟩ := r
    rw [advance_of_next? hn hc, Cursor.advance_of_next? hn]

theorem matchChar_toByteCursor (hc : c.line ≤ lastLine) (expected : Char) :
    c.toByteCursor.matchChar expected =
      (c.matchChar expected).2.ifNumbered
        ((c.matchChar expected).1, (c.matchChar expected).2.toByteCursor) := by
  rw [matchChar, atEnd_toByteCursor, current_toByteCursor]
  cases hn : c.next? with
  | none =>
    rw [if_pos (Or.inl (Cursor.atEnd_of_next?_eq_none hn)),
      Cursor.matchChar_of_rest_nil _ (Cursor.next?_eq_none_iff.mp hn), Cursor.ifNumbered_of_le hc]
  | some r =>
    obtain ⟨a, d⟩ := r
    have hcurrent : c.current = a := by rw [c.current_eq, Cursor.rest_of_next?_eq_some hn]; rfl
    have hend := Cursor.not_atEnd_of_next? hn
    by_cases ha : a = expected
    · subst ha
      rw [if_neg (not_or.mpr ⟨hend, not_not.mpr hcurrent⟩), advance_of_next? hn hc,
        Cursor.matchChar_of_next? hn]
      exact Cursor.map_ifNumbered _ _
    · rw [if_pos (Or.inr (hcurrent ▸ ha)), Cursor.matchChar_of_ne hn ha,
        Cursor.ifNumbered_of_le hc]

/-- A cursor that has read nothing is where it was. -/
theorem eq_or_bytesLeft_lt_of_advance {c d : ByteCursor source} {a : Char}
    (h : c.advance = some (a, d)) : d = c ∨ d.bytesLeft < c.bytesLeft := by
  rw [advance] at h
  cases hb : byteAt? source c.position with
  | none =>
    rw [hb] at h
    obtain ⟨-, rfl⟩ := Prod.mk.inj (Option.some.inj h)
    exact .inl rfl
  | some b =>
    have hlt : c.position < source.utf8ByteSize := by
      rw [← Nat.not_le, ← byteAt?_eq_none_iff, hb]
      simp
    rw [hb] at h
    dsimp only at h
    split at h
    · obtain ⟨line, -, hd⟩ := Option.map_eq_some_iff.mp h
      obtain ⟨-, rfl⟩ := Prod.mk.inj hd
      exact .inr (Nat.sub_lt_sub_left hlt (Nat.lt_succ_self _))
    · obtain ⟨t, -, hd⟩ := Option.map_eq_some_iff.mp h
      cases ht : t.toList.head? with
      | none =>
        rw [ht] at hd
        obtain ⟨-, rfl⟩ := Prod.mk.inj hd
        exact .inl rfl
      | some b =>
        rw [ht] at hd
        obtain ⟨-, rfl⟩ := Prod.mk.inj hd
        exact .inr (Nat.sub_lt_sub_left hlt (Nat.lt_add_of_pos_right b.utf8Size_pos))

theorem bytesLeft_toByteCursor_lt {d : Cursor source} (h : c.pos < d.pos) :
    d.toByteCursor.bytesLeft < c.toByteCursor.bytesLeft := by
  have hd := d.position_add_rest
  replace h : c.position < d.position := h
  exact Nat.sub_lt_sub_left (Nat.lt_of_lt_of_le h (hd ▸ Nat.le_add_right _ _)) h

/-- A loop reads a run of characters if it goes on where there is one more of them. -/
theorem skipWhile_toByteCursor {goesOn : ByteCursor source → Bool} {p : Char → Bool}
    (hgo : ∀ c : Cursor source, goesOn c.toByteCursor = c.rest.head?.any p)
    (hc : c.line ≤ lastLine) :
    c.toByteCursor.skipWhile goesOn =
      (c.advanceWhile p).ifNumbered (c.advanceWhile p).toByteCursor := by
  fun_induction Cursor.advanceWhile p c with
  | case1 c a d hn hp ih =>
    have hgoes : goesOn c.toByteCursor = true := by
      rw [hgo, Cursor.rest_of_next?_eq_some hn]
      exact hp
    -- a round that reads a character is followed by another
    have hless := bytesLeft_toByteCursor_lt (Cursor.next?_pos_lt hn)
    rw [skipWhile, if_pos hgoes, advance_of_next? hn hc]
    by_cases hd : d.line ≤ lastLine
    · rw [Cursor.ifNumbered_of_le hd]
      dsimp only
      rw [dif_pos hless, ih hd]
    · have hstop := mt (Nat.le_trans (d.reads_advanceWhile p).line_le) hd
      rw [Cursor.ifNumbered_of_not_le hd, Cursor.ifNumbered_of_not_le hstop]
  | case2 c a d hn hp =>
    have hstops : ¬ goesOn c.toByteCursor = true := by
      rw [hgo, Cursor.rest_of_next?_eq_some hn]
      exact hp
    rw [skipWhile, if_neg hstops, Cursor.ifNumbered_of_le hc]
  | case3 c hn =>
    have hstops : ¬ goesOn c.toByteCursor = true := by
      rw [hgo, Cursor.next?_eq_none_iff.mp hn]
      simp
    rw [skipWhile, if_neg hstops, Cursor.ifNumbered_of_le hc]

/-- A loop that asks for the next character only stops at the end, where it sees `nothing`, unless
this is one of the characters that it goes on for. -/
theorem skipWhile_current_toByteCursor {p : Char → Bool} (hp : p Cursor.nothing = false)
    (hc : c.line ≤ lastLine) :
    (c.toByteCursor.skipWhile fun b => p b.current) =
      (c.advanceWhile p).ifNumbered (c.advanceWhile p).toByteCursor := by
  refine skipWhile_toByteCursor (fun c => ?_) hc
  rw [current_toByteCursor, c.current_eq]
  cases c.rest.head? with
  | none => exact hp
  | some a => rfl

/-! ## Any question -/

/-- **One question.** It is answered as it is from the place. -/
theorem ask_toByteCursor (h : c.LinesFit) (r : Cursor.Request) :
    c.toByteCursor.ask r = ((c.ask r).1, (c.ask r).2.toByteCursor) := by
  have hc := h.line_le
  obtain ⟨s, hr⟩ := c.exists_reads_ask r
  have hline := (hr.linesFit h).line_le
  cases r with
  | advance =>
    replace hline : c.advance.2.line ≤ lastLine := hline
    rw [ask, advance_toByteCursor hc, Cursor.ifNumbered_of_le hline]
    rfl
  | current => rw [ask, current_toByteCursor]; rfl
  | peek offset => rw [ask, peek_toByteCursor]; rfl
  | matchChar expected =>
    replace hline : (c.matchChar expected).2.line ≤ lastLine := hline
    rw [ask, matchChar_toByteCursor hc, Cursor.ifNumbered_of_le hline]
    rfl
  | sliceFrom offset =>
    rw [ask, sliceFrom?_toByteCursor, Cursor.ask]
    cases c.sliceFrom? offset with
    | some s => rfl
    | none => rfl
  | remaining => rw [ask, remaining?_toByteCursor]; rfl
  | source => rw [ask]; rfl

theorem askAll_toByteCursor (h : c.LinesFit) (rs : List Cursor.Request) :
    c.toByteCursor.askAll rs = (c.askAll rs).map fun a => (a.1, a.2.toByteCursor) := by
  induction rs generalizing c with
  | nil => rfl
  | cons r rs ih =>
    obtain ⟨s, hs⟩ := Cursor.exists_reads_ask c r
    rw [askAll, ask_toByteCursor h, ih (hs.linesFit h)]
    rfl

theorem start_eq_toByteCursor (source : String) :
    start source = (Cursor.start source).toByteCursor := by
  rw [start, Cursor.toByteCursor, Cursor.position_eq, Cursor.consumed_start]
  rfl

end ByteCursor

end Lox
