import Lox.Proofs.ByteLexer
import Lox.Proofs.ByteOffsets
import Lox.Proofs.Context
import Lox.Proofs.Stepping

/-!
# Calls make progress and do not halt

What a call to a lexer that counts bytes does to its numbers, and why none of them is ever unfit to
cut the text at. Before the end a call reads at least one character, so there are no more calls that
read than there are characters. Each of these is read from a place, a token is cut out between two
places, and a string that has been closed has a place behind its first byte and one before its last.
What is recorded is one fault at most, for a character that nothing begins with.
-/

namespace Lox

open Bytes

/-! ## Characters that nothing begins with -/

/-- No blank, no operator character, no quote, no digit, no letter and no underscore. -/
def StartsNothing (a : Char) : Prop :=
  a ∉ [' ', '\t', '\r', '\n'] ∧
    a ∉ ['(', ')', '{', '}', ',', '.', '-', '+', ';', '*', '/', '!', '=', '<', '>'] ∧ a ≠ '"' ∧
    ¬ ('0' ≤ a ∧ a ≤ '9') ∧ ¬ ('A' ≤ a ∧ a ≤ 'Z') ∧ ¬ ('a' ≤ a ∧ a ≤ 'z') ∧ a ≠ '_'

theorem of_eq_other_iff {a : Char} : Opening.of a = .other ↔ StartsNothing a := by
  have hoperator : (∀ k, ([a], k) ∉ operators) ↔
      a ∉ ['(', ')', '{', '}', ',', '.', '-', '+', ';', '*', '/', '!', '=', '<', '>'] := by
    simp only [operators, List.mem_cons, List.not_mem_nil, or_false, Prod.mk.injEq,
      List.cons.injEq, and_true, reduceCtorEq, and_false, not_or, forall_and]
    simp
  rw [Opening.of_eq_iff, StartsNothing]
  show a.isDigit = false ∧ isWordStart a = false ∧ (∀ k, ([a], k) ∉ operators) ∧
    a ∉ [' ', '\t', '\r', '\n', '"'] ↔ _
  rw [hoperator, ← Bool.not_eq_true, ← Bool.not_eq_true, isDigit_iff, isWordStart_iff]
  simp only [List.mem_cons, List.not_mem_nil, or_false, not_or]
  tauto

/-- What a rule matches begins with a character that something begins with. -/
theorem not_startsNothing_of_mem {r : Rule} {s : List Char} {a : Char} (h : s ∈ r.language)
    (ha : s.head? = some a) : ¬ StartsNothing a := by
  obtain ⟨t, rfl⟩ := List.head?_eq_some_iff.mp ha
  rw [← of_eq_other_iff]
  intro hother
  have htail := Rule.tail_of_mem h
  rw [hother] at htail
  exact htail

theorem next_stray {text : List Char} {a : Char} (ha : text.head? = some a) (h : StartsNothing a) :
    (Segment.stray a).Next text := by
  obtain ⟨t, rfl⟩ := List.head?_eq_some_iff.mp ha
  exact ⟨noMatch_of_other (of_eq_other_iff.mpr h), rfl, h.2.2.1⟩

variable {source : String}

/-! ## Reading from place to place -/

/-- Reading `read` leads from one place of the text to another. -/
structure ByteCursor.Passes (b b' : ByteCursor source) (read : List Char) : Prop where
  splitsAt : ∃ p q, SplitsAt source b.position p (read ++ q) ∧
    SplitsAt source b'.position (p ++ read) q
  position_le : b.position ≤ b'.position
  position_le_size : b'.position ≤ source.utf8ByteSize
  isBoundary_before : IsBoundary source b.position
  isBoundary_behind : IsBoundary source b'.position
  /-- Each of the characters is read from a place. -/
  isBoundary_read : ∀ s a t, read = s ++ a :: t →
    IsBoundary source (b.position + (String.ofList s).utf8ByteSize)

theorem Cursor.Reads.passes {c d : Cursor source} {read : List Char} (h : c.Reads d read) :
    c.toByteCursor.Passes d.toByteCursor read := by
  have hbefore := splitsAt_position c
  have hbehind := splitsAt_position d
  rw [h.rest_eq] at hbefore
  rw [h.consumed_eq] at hbehind
  refine ⟨⟨_, _, hbefore, hbehind⟩, Cursor.pos_le_iff.mp h.pos_le, ?_, ⟨_, _, hbefore⟩,
    ⟨_, _, hbehind⟩, ?_⟩
  · have hsize := d.position_add_rest
    rw [Cursor.position_toByteCursor]
    omega
  · rintro s a t rfl
    refine ⟨c.consumed ++ s, a :: t ++ d.rest, ?_, ?_⟩
    · rw [hbefore.toList_eq, List.append_assoc, List.append_assoc]
    · rw [String.ofList_append, String.utf8ByteSize_append, hbefore.size_eq,
        Cursor.position_toByteCursor]

/-! ## One call -/

/-- The call of `b` reads `read`, answers `answer` and leads to `b'`. -/
structure ByteLexer.Calls (b : ByteLexer source) (read : List Char)
    (answer : Except ScanError (Option Token)) (b' : ByteLexer source) : Prop where
  scanToken_eq : b.scanToken = some (answer, b')
  passes : b.cursor.Passes b'.cursor read
  /-- Before the end, something is read. -/
  progress : b.cursor.atEnd = false → read ≠ []
  /-- The token is cut out of the text from where the call began up to where it ends. -/
  tokenStart_eq : b'.tokenStart = b.cursor.position
  lexeme?_eq : b'.lexeme? = some (String.ofList read)
  lexeme_eq : ∀ t, answer = .ok (some t) → t.lexeme = String.ofList read
  /-- The value is cut out of a string from behind its first byte up to its last. -/
  isBoundary_string : ∀ t, answer = .ok (some t) → t.kind = .string →
    2 ≤ t.lexeme.utf8ByteSize ∧ IsBoundary t.lexeme 1 ∧
      IsBoundary t.lexeme (t.lexeme.utf8ByteSize - 1)
  /-- One fault is recorded behind the others if nothing begins with the first character. -/
  errors_eq : (∃ a, read = [a] ∧ StartsNothing a ∧
      b'.errors = b.errors.push (.unexpectedCharacter b.cursor.line)) ∨
    (∀ a, read.head? = some a → ¬ StartsNothing a) ∧ b'.errors = b.errors

theorem isBoundary_quoted {s : List Char} (h : s ∈ Rule.string.language) :
    2 ≤ (String.ofList s).utf8ByteSize ∧ IsBoundary (String.ofList s) 1 ∧
      IsBoundary (String.ofList s) ((String.ofList s).utf8ByteSize - 1) := by
  obtain ⟨body, -, rfl⟩ := Rule.mem_string.mp h
  have hsize : (String.ofList ('"' :: (body ++ ['"']))).utf8ByteSize =
      (String.ofList ('"' :: body)).utf8ByteSize + 1 := by
    rw [← List.cons_append, String.ofList_append, String.utf8ByteSize_append]
    rfl
  refine ⟨?_, ⟨['"'], body ++ ['"'], String.toList_ofList, rfl⟩,
    ⟨'"' :: body, ['"'], String.toList_ofList, ?_⟩⟩
  · rw [hsize, utf8ByteSize_ofList_cons]
    exact Nat.succ_le_succ (Nat.le_add_right 1 _)
  · rw [hsize, Nat.add_sub_cancel]

/-- A segment that is a string token has its quotes. -/
theorem Segment.Next.isBoundary_string {text : List Char} {g : Segment} (h : g.Next text)
    {line : Nat} {t : Token} (ht : g.token? line = some t) (hk : t.kind = .string) :
    2 ≤ t.lexeme.utf8ByteSize ∧ IsBoundary t.lexeme 1 ∧
      IsBoundary t.lexeme (t.lexeme.utf8ByteSize - 1) := by
  obtain ⟨k, hkind, rfl⟩ := Option.map_eq_some_iff.mp ht
  obtain rfl : k = .string := hk
  obtain ⟨r, hr, s, hs, rfl⟩ := h.exists_mem_of_kind? hkind
  obtain rfl := Option.some.inj hr
  exact isBoundary_quoted hs

/-- **One call** from a place, wherever the token before began. -/
theorem calls_of_scanToken {l : Lexer source} (h : l.line ≤ ByteCursor.lastLine)
    {start : Cursor source} {answer : Except ScanError (Option Token)} {b' : ByteLexer source}
    (hb' : (l.toByteLexer start).scanToken = some (answer, b')) :
    answer = l.step.1 ∧ ∃ read, (l.toByteLexer start).Calls read answer b' := by
  have hscan := hb'
  rw [ByteLexer.scanToken_toByteLexer h, Cursor.ifNumbered_eq_some_iff] at hb'
  obtain ⟨rfl, rfl⟩ := Prod.mk.inj hb'.2
  refine ⟨rfl, ?_⟩
  have hend : l.cursor.rest = [] → (l.toByteLexer start).cursor.atEnd = true := by
    rw [ByteLexer.atEnd_toByteLexer, Cursor.atEnd_iff]
    exact id
  have hlexeme : ∀ {l' : Lexer source} {read : List Char}, l.cursor.Reads l'.cursor read →
      (l'.toByteLexer l.cursor).lexeme? = some (String.ofList read) := by
    intro l' read hr
    rw [← hr.textFrom_eq]
    exact Cursor.slice?_position hr.pos_le
  have hstep := l.isStep_step
  generalize hl : l.step = r at hscan hstep
  cases hstep with
  | atEnd hrest =>
    have hr := Cursor.Reads.nil l.cursor
    refine ⟨[], hscan, hr.passes, fun hnot => ?_, rfl, hlexeme hr, by simp, by simp,
      .inr ⟨by simp, rfl⟩⟩
    rw [hend hrest] at hnot
    exact absurd hnot (by simp)
  | @segment g l' hg hr herrors =>
    refine ⟨g.text, hscan, hr.passes, fun _ => hg.text_ne_nil, rfl, hlexeme hr, fun t ht => ?_,
      fun t ht => hg.isBoundary_string (Except.ok.inj ht), ?_⟩
    · obtain ⟨k, -, rfl⟩ := Option.map_eq_some_iff.mp (Except.ok.inj ht)
      rfl
    · cases g with
      | matched r s =>
        refine .inr ⟨fun a => not_startsNothing_of_mem (LongestMatch.mem hg), ?_⟩
        rw [Segment.error?, Option.toList_none, List.append_nil] at herrors
        exact Array.toList_inj.mp herrors
      | stray a =>
        rw [hr.rest_eq] at hg
        have hother : Opening.of a = .other := (Segment.next_append_iff.mp hg).1
        refine .inl ⟨a, rfl, of_eq_other_iff.mp hother, ?_⟩
        rw [Segment.error?, Option.toList_some, ← Array.toList_push] at herrors
        exact Array.toList_inj.mp herrors
  | openString hne hr =>
    refine ⟨_, hscan, hr.passes, fun _ => hne, rfl, hlexeme hr, by simp, by simp,
      .inr ⟨fun a ha hnothing => ?_, rfl⟩⟩
    -- a character that nothing begins with would have been recorded
    have hok := (Lexer.step_of_next (next_stray ha hnothing)).1
    rw [hl] at hok
    exact absurd hok (by simp)

/-! ## Any number of calls -/

/--
**Each call makes progress, and none halts as long as the lines have numbers.** Any number of calls
can be made if the line behind them has a number; one more call, if it does not halt, answers what
the lexer answers that can only be between two characters; and there is nothing left to read after
as many calls as the text has characters. If all lines of the text have numbers, no call halts, and
neither does scanning to the end.
-/
theorem calls_make_progress (source : String) (n : Nat) :
    (((ByteLexer.start source).afterCalls n).isSome ↔
      ((Lexer.start source).afterSteps n).line ≤ ByteCursor.lastLine) ∧
    (∀ b, (ByteLexer.start source).afterCalls n = some b →
      (source.toList.length ≤ n → b.cursor.atEnd = true) ∧
      ∀ answer b', b.scanToken = some (answer, b') →
        answer = ((Lexer.start source).afterSteps n).step.1 ∧ ∃ read, b.Calls read answer b') ∧
    (1 + source.toList.count '\n' ≤ ByteCursor.lastLine →
      ∃ b, (ByteLexer.start source).afterCalls n = some b ∧ b.scanToken.isSome ∧
        b.scanTokens = some ((Lexer.start source).afterSteps n).finish) := by
  have hstart : (Lexer.start source).line ≤ ByteCursor.lastLine := Cursor.line_start_le source
  obtain ⟨start, hcalls⟩ := ByteLexer.afterCalls_toByteLexer hstart (.start source) n
  rw [← ByteLexer.start_eq_toByteLexer] at hcalls
  rw [hcalls]
  refine ⟨?_, fun b hb => ?_, fun hlines => ?_⟩
  · rw [Option.isSome_iff_exists]
    constructor
    · rintro ⟨b, hb⟩
      exact (Cursor.ifNumbered_eq_some_iff.mp hb).1
    · intro hline
      exact ⟨_, Cursor.ifNumbered_of_le hline⟩
  · obtain ⟨hline, rfl⟩ := Cursor.ifNumbered_eq_some_iff.mp hb
    refine ⟨fun hn => ?_, fun answer b' => calls_of_scanToken hline⟩
    rw [← Cursor.rest_start] at hn
    rw [ByteLexer.atEnd_toByteLexer, Cursor.atEnd_iff]
    exact (Lexer.start source).rest_afterSteps_eq_nil hn
  · obtain ⟨s, hr⟩ := (Lexer.start source).exists_reads_afterSteps n
    have hfit := hr.linesFit (Cursor.linesFit_start hlines)
    obtain ⟨t, hstep, -⟩ := ((Lexer.start source).afterSteps n).exists_reads_step
    refine ⟨_, Cursor.ifNumbered_of_le hfit.line_le, ?_,
      ByteLexer.scanTokens_toByteLexer hfit start⟩
    rw [ByteLexer.scanToken_toByteLexer hfit.line_le,
      Cursor.ifNumbered_of_le (hstep.linesFit hfit).line_le]
    rfl

/-- Wide characters, and a string that is never closed. -/
theorem calls_make_progress_lone_quote :
    ∃ b, (ByteLexer.start "é\"€\n").afterCalls 4 = some b ∧ b.scanToken.isSome ∧
      b.cursor.atEnd = true := by
  obtain ⟨-, hcalls, htotal⟩ := calls_make_progress "é\"€\n" 4
  obtain ⟨b, hb, hscan, -⟩ := htotal (by decide)
  exact ⟨b, hb, hscan, (hcalls b hb).1 (by decide)⟩

end Lox
