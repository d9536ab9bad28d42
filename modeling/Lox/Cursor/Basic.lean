/-!
# A place in a text, and the line it is on

Scanning reads a text from left to right through a cursor. Places are byte offsets of the
UTF-8 form of the text, and the type only holds offsets that lie between two characters, so
what is before a cursor and what is after it are texts again. Only a line feed ends a line.

Everything a cursor does is said here in terms of one step, `next?`: it takes one whole
character, of whatever width, or there is none left to take. What is left to read is `rest`,
and each operation has one lemma that says what it does to `rest`.
-/

namespace Lox

/-- A place in `source`, with the number of the line it is on. -/
@[ext] structure Cursor (source : String) where
  /-- The place, between two characters of the text. -/
  pos : source.Pos
  /-- One more than the number of line feeds before the place. -/
  line : Nat
deriving DecidableEq

namespace Cursor

variable {source : String}

/-- The beginning of the text, on line 1. -/
def start (source : String) : Cursor source := ⟨source.startPos, 1⟩

/-- The number of bytes before the cursor. -/
def position (c : Cursor source) : Nat := c.pos.offset.byteIdx

def atEnd (c : Cursor source) : Bool := c.pos = source.endPos

/-- What is left to read, as characters. -/
def rest (c : Cursor source) : List Char := (source.sliceFrom c.pos).copy.toList

/-- What has been read, as characters. -/
def consumed (c : Cursor source) : List Char := (source.sliceTo c.pos).copy.toList

/-- The line after reading `a` on line `line`. -/
def lineAfter (line : Nat) (a : Char) : Nat := if a = '\n' then line + 1 else line

/-- The next character and the cursor after it, or nothing at the end of the text. -/
def next? (c : Cursor source) : Option (Char × Cursor source) :=
  if h : c.pos = source.endPos then none
  else some (c.pos.get h, ⟨c.pos.next h, lineAfter c.line (c.pos.get h)⟩)

/-- What stands for "no character". A text may hold this character too. -/
def nothing : Char := '\x00'

/-- The next character, without reading it. -/
def current (c : Cursor source) : Char := c.pos.get?.getD nothing

/--
The character that starts `offset` bytes after the cursor. There is none past the end of the
text, and none inside a character of several bytes.
-/
def peek (c : Cursor source) (offset : Nat) : Char :=
  ((source.pos? ⟨c.position + offset⟩).bind fun p => p.get?).getD nothing

/-- Reads one character; at the end it reads nothing and stays where it is. -/
def advance (c : Cursor source) : Char × Cursor source := c.next?.getD (nothing, c)

/-- Reads the next character if it is `expected`, and says whether it did. -/
def matchChar (c : Cursor source) (expected : Char) : Bool × Cursor source :=
  match c.next? with
  | some (a, d) => if a = expected then (true, d) else (false, c)
  | none => (false, c)

/-- The text between an earlier place and the cursor. -/
def textFrom (c : Cursor source) (p : source.Pos) : String := source.extract p c.pos

/--
The text from byte `offset` up to the cursor. The offset must not lie after the cursor or
inside a character.
-/
def sliceFrom? (c : Cursor source) (offset : Nat) : Option String :=
  match source.pos? ⟨offset⟩ with
  | some p => if p ≤ c.pos then some (c.textFrom p) else none
  | none => none

def remaining (c : Cursor source) : String := source.extract c.pos source.endPos

/-! ## A step moves forward -/

theorem next?_pos_lt {c d : Cursor source} {a : Char} (h : c.next? = some (a, d)) :
    c.pos < d.pos := by
  unfold next? at h
  split at h
  · simp at h
  · next hp =>
    simp only [Option.some.injEq, Prod.mk.injEq] at h
    obtain ⟨_, rfl⟩ := h
    exact String.Pos.lt_next (h := hp)

/-- Reads characters as long as they satisfy `p`. -/
def advanceWhile (p : Char → Bool) (c : Cursor source) : Cursor source :=
  match _h : c.next? with
  | some (a, d) => if p a then d.advanceWhile p else c
  | none => c
termination_by c.pos
decreasing_by exact next?_pos_lt _h

/-! ## What each operation does to the text that is left -/

theorem rest_of_next?_eq_some {c d : Cursor source} {a : Char} (h : c.next? = some (a, d)) :
    c.rest = a :: d.rest := by
  unfold next? at h
  split at h
  · simp at h
  · next hp =>
    simp only [Option.some.injEq, Prod.mk.injEq] at h
    obtain ⟨rfl, rfl⟩ := h
    rw [rest, c.pos.splits.eq_right (c.pos.splits_next_right hp), rest]
    simp

theorem consumed_of_next?_eq_some {c d : Cursor source} {a : Char} (h : c.next? = some (a, d)) :
    d.consumed = c.consumed ++ [a] := by
  unfold next? at h
  split at h
  · simp at h
  · next hp =>
    simp only [Option.some.injEq, Prod.mk.injEq] at h
    obtain ⟨rfl, rfl⟩ := h
    rw [consumed, (c.pos.next hp).splits.eq_left (c.pos.splits_next hp), consumed]
    simp

theorem line_of_next?_eq_some {c d : Cursor source} {a : Char} (h : c.next? = some (a, d)) :
    d.line = lineAfter c.line a := by
  unfold next? at h
  split at h
  · simp at h
  · simp only [Option.some.injEq, Prod.mk.injEq] at h
    obtain ⟨rfl, rfl⟩ := h
    rfl

theorem next?_eq_none_iff {c : Cursor source} : c.next? = none ↔ c.rest = [] := by
  constructor
  · intro h
    unfold next? at h
    split at h
    · next hp => rw [rest, hp, source.endPos.splits.eq_right source.splits_endPos]; rfl
    · simp at h
  · intro h
    cases hn : c.next? with
    | none => rfl
    | some r => rw [rest_of_next?_eq_some (a := r.1) (d := r.2) hn] at h; simp at h

/-- The text is what has been read, followed by what is left. -/
theorem consumed_append_rest (c : Cursor source) : c.consumed ++ c.rest = source.toList := by
  rw [consumed, rest, ← String.toList_append, ← c.pos.splits.eq_append]

theorem rest_advanceWhile (p : Char → Bool) (c : Cursor source) :
    (c.advanceWhile p).rest = c.rest.dropWhile p := by
  fun_induction advanceWhile p c with
  | case1 c a d h hp ih => rw [ih, rest_of_next?_eq_some h, List.dropWhile_cons_of_pos hp]
  | case2 c a d h hp => rw [rest_of_next?_eq_some h, List.dropWhile_cons_of_neg hp]
  | case3 c h => rw [next?_eq_none_iff.1 h]; rfl

theorem consumed_advanceWhile (p : Char → Bool) (c : Cursor source) :
    (c.advanceWhile p).consumed = c.consumed ++ c.rest.takeWhile p := by
  fun_induction advanceWhile p c with
  | case1 c a d h hp ih =>
    rw [ih, rest_of_next?_eq_some h, List.takeWhile_cons_of_pos hp, consumed_of_next?_eq_some h,
      List.append_assoc, List.singleton_append]
  | case2 c a d h hp =>
    rw [rest_of_next?_eq_some h, List.takeWhile_cons_of_neg hp, List.append_nil]
  | case3 c h => rw [next?_eq_none_iff.1 h, List.takeWhile_nil, List.append_nil]

theorem pos_le_advanceWhile (p : Char → Bool) (c : Cursor source) :
    c.pos ≤ (c.advanceWhile p).pos := by
  fun_induction advanceWhile p c with
  | case1 c a d h hp ih => exact String.Pos.le_of_lt (String.Pos.lt_of_lt_of_le (next?_pos_lt h) ih)
  | case2 c a d h hp => exact String.Pos.le_refl _
  | case3 c h => exact String.Pos.le_refl _

theorem pos_le_matchChar (c : Cursor source) (a : Char) : c.pos ≤ (c.matchChar a).2.pos := by
  unfold matchChar
  split
  · next h =>
    split
    · exact String.Pos.le_of_lt (next?_pos_lt h)
    · exact String.Pos.le_refl _
  · exact String.Pos.le_refl _

end Cursor

end Lox
