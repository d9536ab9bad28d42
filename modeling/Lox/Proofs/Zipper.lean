import Lox.Proofs.ByteCursor
import Lox.Proofs.Lines

/-!
# A cursor is a zipper

A cursor that counts bytes keeps two numbers. What they stand for are two lists of characters, those
that have been read and those that are left, and every question can be answered from these lists. A
`Zipper` answers them in this way and knows nothing of bytes, except that it counts the bytes of
whole characters when it is asked for a place by its offset.

Both answer alike, whatever they are asked and in whatever order. The proof goes through a `Cursor`,
which has its offset on the one side and its two lists on the other: one step of it is a step of
both, and so is a run.
-/

namespace Lox

open Cursor (Request Answer)

/-- The characters of a text, those that have been read and those that are left. -/
@[ext] structure Zipper where
  consumed : List Char
  rest : List Char
deriving DecidableEq

namespace Zipper

def start (source : String) : Zipper := ⟨[], source.toList⟩

/-- Moves the first character that is left to the end of those that have been read. -/
def advance : Zipper → Char × Zipper
  | ⟨consumed, []⟩ => (Cursor.nothing, ⟨consumed, []⟩)
  | ⟨consumed, a :: rest⟩ => (a, ⟨consumed ++ [a], rest⟩)

/-- Moves the first character that is left if it is `expected`, and says whether it did. -/
def matchChar (z : Zipper) (expected : Char) : Bool × Zipper :=
  if z.rest.head? = some expected then (true, z.advance.2) else (false, z)

def current (z : Zipper) : Char := z.rest.head?.getD Cursor.nothing

/-- What is left of some characters behind the first `n` bytes, if these are whole characters. -/
def dropBytes? : Nat → List Char → Option (List Char)
  | 0, s => some s
  | _ + 1, [] => none
  | n + 1, a :: s => if a.utf8Size ≤ n + 1 then dropBytes? (n + 1 - a.utf8Size) s else none

def peek (z : Zipper) (offset : Nat) : Char :=
  ((dropBytes? offset z.rest).bind List.head?).getD Cursor.nothing

def sliceFrom? (z : Zipper) (offset : Nat) : Option String :=
  (dropBytes? offset z.consumed).map String.ofList

/-- The answer to one question. Two of them move a character, and the others move nothing. -/
def ask (z : Zipper) : Request → Answer × Zipper
  | .advance => (.char z.advance.1, z.advance.2)
  | .current => (.char z.current, z)
  | .peek offset => (.char (z.peek offset), z)
  | .matchChar expected => (.bool (z.matchChar expected).1, (z.matchChar expected).2)
  | .sliceFrom offset =>
    match z.sliceFrom? offset with
    | some s => (.text s, z)
    | none => (.refused, z)
  | .remaining => (.text (String.ofList z.rest), z)
  | .source => (.text (String.ofList (z.consumed ++ z.rest)), z)

/-- The answers to a sequence of questions, each with the zipper after it. -/
def askAll (z : Zipper) : List Request → List (Answer × Zipper)
  | [] => []
  | r :: rs => z.ask r :: (z.ask r).2.askAll rs

theorem dropBytes?_append (p s : List Char) :
    dropBytes? (String.ofList p).utf8ByteSize (p ++ s) = some s := by
  induction p with
  | nil => exact dropBytes?.eq_1 s
  | cons a p ih =>
    obtain ⟨k, hk⟩ := Nat.exists_eq_add_one_of_ne_zero (Nat.ne_of_gt a.utf8Size_pos)
    rw [Bytes.utf8ByteSize_ofList_cons, List.cons_append, hk, Nat.add_right_comm, dropBytes?, hk,
      if_pos (by omega)]
    rw [Nat.add_right_comm, Nat.add_sub_cancel_left, ih]

theorem exists_of_dropBytes? {n : Nat} {s t : List Char} (h : dropBytes? n s = some t) :
    ∃ p, s = p ++ t ∧ (String.ofList p).utf8ByteSize = n := by
  fun_induction dropBytes? n s with
  | case1 s => exact ⟨[], by rw [← Option.some.inj h]; rfl, rfl⟩
  | case2 n => exact absurd h (by simp)
  | case3 n a s hle ih =>
    obtain ⟨p, rfl, hp⟩ := ih h
    refine ⟨a :: p, rfl, ?_⟩
    rw [Bytes.utf8ByteSize_ofList_cons, hp]
    omega
  | case4 n a s _ => exact absurd h (by simp)

end Zipper

/-! ## From a cursor to its two lists -/

namespace Cursor

variable {source : String}

/-- What has been read and what is left. -/
def zipper (c : Cursor source) : Zipper := ⟨c.consumed, c.rest⟩

@[simp] theorem zipper_consumed (c : Cursor source) : c.zipper.consumed = c.consumed := by
  rw [zipper]

@[simp] theorem zipper_rest (c : Cursor source) : c.zipper.rest = c.rest := by
  rw [zipper]

theorem peek_zipper (c : Cursor source) (n : Nat) : c.zipper.peek n = c.peek n := by
  rw [Zipper.peek, zipper_rest, Cursor.peek, ← ByteCursor.decode_eq]
  cases hdrop : Zipper.dropBytes? n c.rest with
  | some t =>
    -- the characters in between lead to a place
    obtain ⟨p, hrest, hp⟩ := Zipper.exists_of_dropBytes? hdrop
    have htext : source.toList = (c.consumed ++ p) ++ t := by
      rw [List.append_assoc, ← hrest, c.consumed_append_rest]
    obtain ⟨d, hconsumed, ht⟩ := exists_of_append htext
    have hd : d.position = c.position + n := by rw [position_of_consumed_eq hconsumed, hp]
    rw [← hd, ByteCursor.decode_position, d.current_eq, ht]
    rfl
  | none =>
    cases hpos : source.pos? ⟨c.position + n⟩ with
    | none => exact (ByteCursor.decode_of_pos?_eq_none hpos).symm
    | some p =>
      obtain ⟨d, -, hd⟩ := exists_position_of_pos? hpos
      obtain ⟨s, hconsumed, hrest⟩ := exists_between (c := c) (d := d) (by omega)
      have hs : (String.ofList s).utf8ByteSize = n := by
        rw [position_of_consumed_eq hconsumed] at hd
        omega
      have hdrop' := Zipper.dropBytes?_append s d.rest
      rw [hs, ← hrest] at hdrop'
      exact absurd (hdrop.symm.trans hdrop') (by simp)

theorem sliceFrom?_zipper (c : Cursor source) (n : Nat) :
    c.zipper.sliceFrom? n = c.sliceFrom? n := by
  rw [Zipper.sliceFrom?, zipper_consumed]
  cases hdrop : Zipper.dropBytes? n c.consumed with
  | some t =>
    obtain ⟨p, hconsumed, hp⟩ := Zipper.exists_of_dropBytes? hdrop
    have htext : source.toList = p ++ (t ++ c.rest) := by
      rw [← List.append_assoc, ← hconsumed, c.consumed_append_rest]
    obtain ⟨d, hd, -⟩ := exists_of_append htext
    have hn : d.position = n := by rw [d.position_eq, hd, hp]
    have hbetween : c.consumed = d.consumed ++ t := by rw [hd, hconsumed]
    have hle := pos_le_of_consumed_eq hbetween
    rw [← hn, sliceFrom?_position hle, Option.map_some, textFrom_of_consumed_eq hle hbetween]
  | none =>
    rw [Cursor.sliceFrom?]
    cases hpos : source.pos? ⟨n⟩ with
    | none => rfl
    | some p =>
      obtain ⟨d, rfl, hd⟩ := exists_position_of_pos? hpos
      have hlt : ¬ d.pos ≤ c.pos := by
        intro hle
        obtain ⟨s, hconsumed, -⟩ := exists_between (pos_le_iff.mp hle)
        have hdrop' := Zipper.dropBytes?_append d.consumed s
        rw [← d.position_eq, hd, ← hconsumed] at hdrop'
        exact absurd (hdrop.symm.trans hdrop') (by simp)
      exact (if_neg hlt).symm

theorem advance_zipper (c : Cursor source) :
    c.zipper.advance = (c.advance.1, c.advance.2.zipper) := by
  cases hn : c.next? with
  | none =>
    have hrest := next?_eq_none_iff.mp hn
    rw [advance_of_rest_nil hrest, zipper, hrest]
    rfl
  | some r =>
    obtain ⟨a, d⟩ := r
    rw [advance_of_next? hn, zipper, zipper, rest_of_next?_eq_some hn,
      consumed_of_next?_eq_some hn]
    rfl

theorem matchChar_zipper (c : Cursor source) (expected : Char) :
    c.zipper.matchChar expected =
      ((c.matchChar expected).1, (c.matchChar expected).2.zipper) := by
  rw [Zipper.matchChar, advance_zipper]
  cases hn : c.next? with
  | none =>
    have hrest := next?_eq_none_iff.mp hn
    have hne : c.zipper.rest.head? ≠ some expected := by rw [zipper, hrest]; simp
    rw [if_neg hne, matchChar_of_rest_nil _ hrest]
  | some r =>
    obtain ⟨a, d⟩ := r
    have hhead : c.zipper.rest.head? = some a := by rw [zipper, rest_of_next?_eq_some hn]; rfl
    by_cases ha : a = expected
    · subst ha
      rw [if_pos hhead, matchChar_of_next? hn, advance_of_next? hn]
    · rw [if_neg (fun h => ha (Option.some.inj (hhead.symm.trans h))), matchChar_of_ne hn ha]

/-- **One question.** The zipper is asked the same, and answers the same. -/
theorem ask_zipper (c : Cursor source) (r : Request) :
    c.zipper.ask r = ((c.ask r).1, (c.ask r).2.zipper) := by
  cases r with
  | advance => rw [Zipper.ask, advance_zipper, ask]
  | current => rw [Zipper.ask, Zipper.current, zipper_rest, ← c.current_eq, ask]
  | peek offset => rw [Zipper.ask, peek_zipper, ask]
  | matchChar expected => rw [Zipper.ask, matchChar_zipper, ask]
  | sliceFrom offset =>
    rw [Zipper.ask, sliceFrom?_zipper, ask]
    cases c.sliceFrom? offset with
    | some s => rfl
    | none => rfl
  | remaining =>
    have hrest : String.ofList c.rest = c.remaining := by
      rw [← c.toList_remaining, String.ofList_toList]
    rw [Zipper.ask, ask, zipper_rest, hrest]
  | source =>
    have htext : String.ofList (c.consumed ++ c.rest) = source := by
      rw [c.consumed_append_rest, String.ofList_toList]
    rw [Zipper.ask, ask, zipper_consumed, zipper_rest, htext]

end Cursor

/-! ## From two numbers to two lists -/

/-- What the two numbers of a cursor say about the two lists of characters that they stand for. -/
structure ByteCursor.Shows {source : String} (b : ByteCursor source) (z : Zipper) : Prop where
  source_eq : source.toList = z.consumed ++ z.rest
  position_eq : b.position = (String.ofList z.consumed).utf8ByteSize
  line_eq : b.line = 1 + z.consumed.count '\n'
  remaining_eq : b.remaining? = some (String.ofList z.rest)
  atEnd_iff : b.atEnd = true ↔ z.rest = []
  current_eq : b.current = z.rest.head?.getD Cursor.nothing

theorem Cursor.shows_zipper {source : String} {c : Cursor source} (h : c.line = lineAt c.pos) :
    c.toByteCursor.Shows c.zipper where
  source_eq := by rw [zipper_consumed, zipper_rest, c.consumed_append_rest]
  position_eq := by rw [zipper_consumed, ← c.position_eq]; rfl
  line_eq := by rw [zipper_consumed, ← c.lineAt_pos]; exact h
  remaining_eq := by
    rw [ByteCursor.remaining?_toByteCursor, zipper_rest, ← c.toList_remaining,
      String.ofList_toList]
  atEnd_iff := by rw [ByteCursor.atEnd_toByteCursor, Cursor.atEnd_iff, zipper_rest]
  current_eq := by rw [ByteCursor.current_toByteCursor, c.current_eq, zipper_rest]

theorem Cursor.forall₂_askAll {source : String} {c : Cursor source} (h : c.line = lineAt c.pos)
    (rs : List Request) :
    List.Forall₂ (fun b z => b.1 = z.1 ∧ b.2.Shows z.2)
      ((c.askAll rs).map fun a => (a.1, a.2.toByteCursor)) (c.zipper.askAll rs) := by
  induction rs generalizing c with
  | nil => exact .nil
  | cons r rs ih =>
    obtain ⟨s, hs⟩ := c.exists_reads_ask r
    have hline := hs.line_eq_lineAt h
    rw [Zipper.askAll, ask_zipper]
    exact .cons ⟨rfl, shows_zipper hline⟩ (ih hline)

/--
**A byte offset and a line count do the work of a zipper.** However the cursor is asked, and however
often, every answer is that of the zipper, and after each of them the two numbers stand for the two
lists. Nothing but a text from a wrong place is refused. The answers are also those of the cursor
that can only be between two characters.
-/
theorem byteCursor_refines_zipper (source : String) (rs : List Request)
    (hlines : 1 + source.toList.count '\n' ≤ ByteCursor.lastLine) :
    (ByteCursor.start source).Shows (Zipper.start source) ∧
      List.Forall₂ (fun b z => b.1 = z.1 ∧ b.2.Shows z.2)
        ((ByteCursor.start source).askAll rs) ((Zipper.start source).askAll rs) ∧
      (ByteCursor.start source).askAll rs =
        ((Cursor.start source).askAll rs).map fun a => (a.1, a.2.toByteCursor) := by
  have hzipper : Zipper.start source = (Cursor.start source).zipper := by
    rw [Zipper.start, Cursor.zipper, Cursor.consumed_start, Cursor.rest_start]
  have hline : (Cursor.start source).line = lineAt (Cursor.start source).pos := by
    rw [Cursor.lineAt_pos, Cursor.consumed_start]
    rfl
  have hask := ByteCursor.askAll_toByteCursor (Cursor.linesFit_start hlines) rs
  rw [hzipper, ByteCursor.start_eq_toByteCursor, hask]
  exact ⟨Cursor.shows_zipper hline, Cursor.forall₂_askAll hline rs, rfl⟩

theorem byteCursor_refines_zipper_on_wide_text :
    1 + "é\n\x00".toList.count '\n' ≤ ByteCursor.lastLine ∧
      ((ByteCursor.start "é\n\x00").askAll [.peek 1, .advance, .sliceFrom 1, .matchChar '\n',
        .matchChar '\x00', .matchChar '\x00', .sliceFrom 2]).map Prod.fst =
      [.char '\x00', .char 'é', .refused, .bool true, .bool true, .bool false,
        .text "\n\x00"] := by
  have hlines : 1 + "é\n\x00".toList.count '\n' ≤ ByteCursor.lastLine := by decide
  refine ⟨hlines, ?_⟩
  have hanswers := (byteCursor_refines_zipper "é\n\x00" [.peek 1, .advance, .sliceFrom 1,
    .matchChar '\n', .matchChar '\x00', .matchChar '\x00', .sliceFrom 2] hlines).2.1
  have hfst := List.forall₂_map_left_iff.mpr
    (List.forall₂_map_right_iff.mpr (hanswers.imp fun _ _ h => h.1))
  rw [List.forall₂_eq_eq_eq] at hfst
  rw [hfst]
  decide

end Lox
