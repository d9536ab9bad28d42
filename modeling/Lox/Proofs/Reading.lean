import Lox.Cursor.View

/-!
# What a cursor reads

Each operation that moves a cursor is described by one relation: `c.Reads d s` says that the cursor
`d` stands behind `s` when `c` stood before it. It carries all that the rest of the development
wants to know of a cursor: what is left, what has been read, the line, and that the place only
moves forward. Reading one text and then another reads their concatenation, so the effect of a
whole piece is put together from the effects of its parts.
-/

namespace Lox.Cursor

variable {source : String}

/-- Reading `s` leads from `c` to `d`. -/
structure Reads (c d : Cursor source) (s : List Char) : Prop where
  rest_eq : c.rest = s ++ d.rest
  consumed_eq : d.consumed = c.consumed ++ s
  line_eq : d.line = c.line + s.count '\n'
  pos_le : c.pos ≤ d.pos

theorem Reads.nil (c : Cursor source) : c.Reads c [] where
  rest_eq := (List.nil_append _).symm
  consumed_eq := (List.append_nil _).symm
  line_eq := rfl
  pos_le := String.Pos.le_refl _

theorem Reads.trans {b c d : Cursor source} {s t : List Char} (h : b.Reads c s)
    (h' : c.Reads d t) : b.Reads d (s ++ t) := by
  refine ⟨?_, ?_, ?_, String.Pos.le_trans h.pos_le h'.pos_le⟩
  · rw [h.rest_eq, h'.rest_eq, List.append_assoc]
  · rw [h'.consumed_eq, h.consumed_eq, List.append_assoc]
  · rw [h'.line_eq, h.line_eq, List.count_append, Nat.add_assoc]

theorem Reads.rest_of_append {c d : Cursor source} {s t : List Char} (h : c.Reads d s)
    (hc : c.rest = s ++ t) : d.rest = t :=
  (List.append_cancel_left (hc.symm.trans h.rest_eq)).symm

/-- The lexeme between two cursors is what was read between them. -/
theorem Reads.textFrom_eq {c d : Cursor source} {s : List Char} (h : c.Reads d s) :
    d.textFrom c.pos = String.ofList s :=
  textFrom_of_consumed_eq h.pos_le h.consumed_eq

theorem reads_of_next? {c d : Cursor source} {a : Char} (h : c.next? = some (a, d)) :
    c.Reads d [a] := by
  refine ⟨rest_of_next?_eq_some h, consumed_of_next?_eq_some h, ?_,
    String.Pos.le_of_lt (next?_pos_lt h)⟩
  rw [line_of_next?_eq_some h, lineAfter, List.count_singleton]
  by_cases ha : a = '\n'
  · simp [ha]
  · simp [ha]

/-! ## Runs of characters -/

theorem line_advanceWhile (p : Char → Bool) (c : Cursor source) :
    (c.advanceWhile p).line = c.line + (c.rest.takeWhile p).count '\n' := by
  fun_induction advanceWhile p c with
  | case1 c a d h hp ih =>
    rw [ih, (reads_of_next? h).line_eq, (reads_of_next? h).rest_eq, List.singleton_append,
      List.takeWhile_cons_of_pos hp]
    simp only [List.count_cons, List.count_nil]
    omega
  | case2 c a d h hp =>
    rw [rest_of_next?_eq_some h, List.takeWhile_cons_of_neg hp, List.count_nil, Nat.add_zero]
  | case3 c h => rw [next?_eq_none_iff.1 h, List.takeWhile_nil, List.count_nil, Nat.add_zero]

theorem reads_advanceWhile (p : Char → Bool) (c : Cursor source) :
    c.Reads (c.advanceWhile p) (c.rest.takeWhile p) := by
  refine ⟨?_, consumed_advanceWhile p c, line_advanceWhile p c, pos_le_advanceWhile p c⟩
  rw [rest_advanceWhile, List.takeWhile_append_dropWhile]

/-- A run ends before a character that does not belong to it. -/
theorem head?_rest_advanceWhile {p : Char → Bool} {c : Cursor source} {a : Char}
    (h : (c.advanceWhile p).rest.head? = some a) : p a = false := by
  rw [rest_advanceWhile] at h
  have := List.head?_dropWhile_not p c.rest
  rw [h] at this
  simpa using this

/-! ## Looking ahead -/

theorem matchChar_cases (c : Cursor source) (a : Char) :
    (∃ d, c.matchChar a = (true, d) ∧ c.Reads d [a]) ∨
      (c.matchChar a = (false, c) ∧ c.rest.head? ≠ some a) := by
  cases hn : c.next? with
  | none =>
    have hr := next?_eq_none_iff.1 hn
    exact Or.inr ⟨matchChar_of_rest_nil a hr, by simp [hr]⟩
  | some r =>
    obtain ⟨b, d⟩ := r
    by_cases hb : b = a
    · subst hb
      exact Or.inl ⟨d, matchChar_of_next? hn, reads_of_next? hn⟩
    · refine Or.inr ⟨matchChar_of_ne hn hb, ?_⟩
      rw [rest_of_next?_eq_some hn, List.head?_cons]
      exact fun h => hb (Option.some.inj h)

/-- Behind a character of one byte, one byte ahead is the next character. -/
theorem peek_one {c d : Cursor source} {a : Char} (h : c.next? = some (a, d))
    (ha : a.utf8Size = 1) : c.peek 1 = d.current := by
  have hd : c.position + 1 = d.position := by rw [position_of_next? h, ha]
  rw [peek, hd, pos?_position]
  rfl

end Lox.Cursor
