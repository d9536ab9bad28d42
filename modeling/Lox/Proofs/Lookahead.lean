import Lox.Proofs.Context
import Lox.Proofs.Stepping
import Mathlib

/-!
# How far ahead a step looks

A lexer that is stepped by hand may be given a text whose end is still to come. What it has read can
be relied on when the steps stay two bytes before the place from which on the text may change: then
every other continuation leads to the same answers, places, lines and recorded faults.

Two lexers in texts that begin alike are followed side by side. A step of the one reads a segment,
and at least two bytes of the common beginning are left behind it. Those are two characters, or one
that is not the point, and a segment looks at no more than that. So the other lexer reads the same
segment.

One byte would not do: a point may be all that is common behind a number.
-/

namespace Lox

/-! ## Two bytes are enough for a segment -/

theorem exists_cons_of_two_bytes {w : List Char} (h : 2 ≤ (String.ofList w).utf8ByteSize) :
    ∃ a t, w = a :: t ∧ (a = '.' → t ≠ []) := by
  cases w with
  | nil => exact absurd h (by decide)
  | cons a t =>
    refine ⟨a, t, rfl, ?_⟩
    rintro rfl rfl
    exact absurd h (by decide)

/-- A segment does not see what comes two bytes behind it. -/
theorem Segment.Next.of_two_bytes {g : Segment} {w t t' : List Char}
    (hw : 2 ≤ (String.ofList w).utf8ByteSize) (h : g.Next (g.text ++ (w ++ t))) :
    g.Next (g.text ++ (w ++ t')) := by
  obtain ⟨a, w, rfl, hpoint⟩ := exists_cons_of_two_bytes hw
  rw [List.cons_append] at h ⊢
  refine h.of_cons fun ha d hd _ => ?_
  obtain ⟨b, w, rfl⟩ := List.exists_cons_of_ne_nil (hpoint ha)
  exact hd

namespace Lexer

/-- What can be observed of a step: its answer, and the lexer after it without its text. -/
structure Observation where
  answer : Except ScanError (Option Token)
  position : Nat
  line : Nat
  errors : Array ScanError
deriving DecidableEq

def observe {source : String} (r : Stepped source) : Observation where
  answer := r.1
  position := r.2.position
  line := r.2.line
  errors := r.2.errors

/-! ## Two lexers side by side -/

variable {u v v' : String}

/-- Two lexers in texts that begin with `u` have read the same and recorded the same. -/
structure Alongside (l : Lexer (u ++ v)) (l' : Lexer (u ++ v')) : Prop where
  consumed_eq : l'.cursor.consumed = l.cursor.consumed
  line_eq : l'.cursor.line = l.cursor.line
  errors_eq : l'.errors = l.errors

theorem alongside_start (u v v' : String) : Alongside (start (u ++ v)) (start (u ++ v')) where
  consumed_eq := by rw [start, start, Cursor.consumed_start, Cursor.consumed_start]
  line_eq := rfl
  errors_eq := rfl

theorem Alongside.position_eq {l : Lexer (u ++ v)} {l' : Lexer (u ++ v')} (h : Alongside l l') :
    l'.position = l.position := by
  rw [position, position, Cursor.position_eq, Cursor.position_eq, h.consumed_eq]

theorem utf8ByteSize_ofList_append (s t : List Char) :
    (String.ofList (s ++ t)).utf8ByteSize =
      (String.ofList s).utf8ByteSize + (String.ofList t).utf8ByteSize := by
  rw [String.ofList_append, String.utf8ByteSize_append]

/-- Two bytes before the end of `u`, two bytes of it are still to be read. -/
theorem exists_ahead {l : Lexer (u ++ v)} (h : l.position + 2 ≤ u.utf8ByteSize) :
    ∃ w, u.toList = l.cursor.consumed ++ w ∧ l.cursor.rest = w ++ v.toList ∧
      2 ≤ (String.ofList w).utf8ByteSize := by
  have htext := l.cursor.consumed_append_rest
  rw [String.toList_append] at htext
  have hsize : u.utf8ByteSize = (String.ofList u.toList).utf8ByteSize := by
    rw [String.ofList_toList]
  rw [position, Cursor.position_eq, hsize] at h
  rcases List.append_eq_append_iff.mp htext with ⟨w, hu, hrest⟩ | ⟨w, hconsumed, _⟩
  · rw [hu, utf8ByteSize_ofList_append] at h
    exact ⟨w, hu, hrest, by omega⟩
  · -- more than all of `u` cannot have been read
    rw [hconsumed, utf8ByteSize_ofList_append] at h
    omega

/-- **One step.** It is answered alike if it stays two bytes before the end of `u`. -/
theorem Alongside.step {l : Lexer (u ++ v)} {l' : Lexer (u ++ v')} (h : Alongside l l')
    (hpos : l.step.2.position + 2 ≤ u.utf8ByteSize) :
    l'.step.1 = l.step.1 ∧ Alongside l.step.2 l'.step.2 := by
  obtain ⟨w, hu, hrest, hw⟩ := exists_ahead hpos
  have hne : l.step.2.cursor.rest ≠ [] := by
    obtain ⟨a, t, rfl, _⟩ := exists_cons_of_two_bytes hw
    simp [hrest]
  have hstep := l.isStep_step
  generalize l.step = r at hu hrest hne hstep ⊢
  cases hstep with
  | atEnd hnil => exact absurd hnil hne
  | openString _ hr => exact absurd hr.rest_eq_nil hne
  | @segment g l₁ hg hr herrors =>
    have hrest' : l'.cursor.rest = g.text ++ (w ++ v'.toList) := by
      have htext := l'.cursor.consumed_append_rest
      rw [String.toList_append, hu, hr.consumed_eq, h.consumed_eq] at htext
      simpa using htext
    have hnext : g.Next l'.cursor.rest := by
      rw [hr.rest_eq, hrest] at hg
      rw [hrest']
      exact hg.of_two_bytes hw
    obtain ⟨hanswer, hr', herrors'⟩ := step_of_next hnext
    refine ⟨by rw [hanswer, h.line_eq], ?_, ?_, ?_⟩
    · rw [hr'.consumed_eq, h.consumed_eq, hr.consumed_eq]
    · rw [hr'.line_eq, h.line_eq, hr.line_eq]
    · rw [← Array.toList_inj, herrors', h.errors_eq, h.line_eq, herrors]

/-- Any number of steps. -/
theorem Alongside.steps {l : Lexer (u ++ v)} {l' : Lexer (u ++ v')} (h : Alongside l l') {k : Nat}
    (hpos : ∀ r ∈ l.steps k, r.2.position + 2 ≤ u.utf8ByteSize) :
    (l'.steps k).map observe = (l.steps k).map observe := by
  induction k generalizing l l' with
  | zero => rfl
  | succ k ih =>
    obtain ⟨hfirst, hlater⟩ := List.forall_mem_cons.mp hpos
    obtain ⟨hanswer, hafter⟩ := h.step hfirst
    have hobserve : observe l'.step = observe l.step := by
      rw [observe, observe, hanswer, hafter.position_eq, line, hafter.line_eq, hafter.errors_eq]
      rfl
    rw [Lexer.steps, Lexer.steps, List.map_cons, List.map_cons, hobserve, ih hafter hlater]

end Lexer

open Lexer

/--
**What comes two bytes later changes nothing.** As long as the steps stay two bytes before the end
of `u`, they can be observed to do the same whatever follows `u`.
-/
theorem steps_eq_of_two_bytes (u v v' : String) (k : Nat)
    (h : ∀ r ∈ (start (u ++ v)).steps k, r.2.position + 2 ≤ u.utf8ByteSize) :
    ((start (u ++ v')).steps k).map observe = ((start (u ++ v)).steps k).map observe :=
  (alongside_start u v v').steps h

/-- A stray, a line feed, a word and another stray are read; a blank and a point are left. -/
theorem steps_eq_before_point :
    (∀ r ∈ (start ("é\nx@ ." ++ "5")).steps 4,
      r.2.position + 2 ≤ "é\nx@ .".utf8ByteSize) ∧
    ((start ("é\nx@ ." ++ "\"")).steps 4).map observe =
      ((start ("é\nx@ ." ++ "5")).steps 4).map observe := by
  have hall : (((start ("é\nx@ ." ++ "5")).steps 4).all fun r =>
      r.2.position + 2 ≤ "é\nx@ .".utf8ByteSize) = true := by cbv
  have h : ∀ r ∈ (start ("é\nx@ ." ++ "5")).steps 4,
      r.2.position + 2 ≤ "é\nx@ .".utf8ByteSize := fun r hr =>
    of_decide_eq_true (List.all_eq_true.mp hall r hr)
  exact ⟨h, steps_eq_of_two_bytes _ _ _ _ h⟩

-- with one byte it would be false: a number that ends before a point may go on behind it
example : (((Cursor.start "1.x").advanceWhile Char.isDigit).atFraction,
    ((Cursor.start "1.5").advanceWhile Char.isDigit).atFraction) = (false, true) := by cbv

end Lox
