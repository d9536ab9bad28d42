import Lox.Lexer.Bytes
import Lox.Proofs.ByteCursor
import Lox.Proofs.Lines

/-!
# A lexer that counts bytes does not halt

As long as the lines of the text have numbers, a lexer that counts bytes does what the lexer does
that can only be between two characters, call by call, and so no call halts. There is one lemma for
each kind of piece: from a place in a token the loops of the piece lead to a place further on, so
that the token can be cut out of the text; and a string that has been closed has a quote of one byte
at either end, so that its value can be cut out of the token.
-/

namespace Lox

open Bytes

variable {source : String}

/-- The lexer with its place as a number, in a token that began at `start`. -/
def Lexer.toByteLexer (l : Lexer source) (start : Cursor source) : ByteLexer source :=
  ⟨l.cursor.toByteCursor, start.position, start.line, l.errors⟩

/-- The lexer that has read as far as `c`. -/
abbrev Cursor.withErrors (c : Cursor source) (errors : Array ScanError) : Lexer source :=
  ⟨c, errors⟩

namespace ByteLexer

variable {start c : Cursor source} {errors : Array ScanError}

theorem atEnd_toByteLexer (l : Lexer source) (start : Cursor source) :
    (l.toByteLexer start).cursor.atEnd = l.cursor.atEnd :=
  ByteCursor.atEnd_toByteCursor l.cursor

/-! ## Loops -/

theorem skipDigits_toByteCursor (hc : c.line ≤ ByteCursor.lastLine) :
    skipDigits c.toByteCursor =
      (c.advanceWhile Char.isDigit).ifNumbered (c.advanceWhile Char.isDigit).toByteCursor :=
  ByteCursor.skipWhile_current_toByteCursor rfl hc

theorem skipWord_toByteCursor (hc : c.line ≤ ByteCursor.lastLine) :
    (c.toByteCursor.skipWhile fun c => isWordPart c.current) =
      (c.advanceWhile isWordPart).ifNumbered (c.advanceWhile isWordPart).toByteCursor :=
  ByteCursor.skipWhile_current_toByteCursor rfl hc

theorem skipTo_toByteCursor (hc : c.line ≤ ByteCursor.lastLine) (q : Char) :
    (c.toByteCursor.skipWhile fun c => !c.atEnd && c.current != q) =
      (c.advanceWhile fun a => a ≠ q).ifNumbered (c.advanceWhile fun a => a ≠ q).toByteCursor := by
  refine ByteCursor.skipWhile_toByteCursor (fun c => ?_) hc
  rw [ByteCursor.atEnd_toByteCursor, ByteCursor.current_toByteCursor, c.current_eq]
  cases hn : c.next? with
  | none =>
    rw [Cursor.atEnd_of_next?_eq_none hn, Cursor.next?_eq_none_iff.mp hn]
    rfl
  | some r =>
    obtain ⟨a, d⟩ := r
    have hend : c.atEnd = false := Bool.eq_false_iff.mpr (Cursor.not_atEnd_of_next? hn)
    rw [hend, Cursor.rest_of_next?_eq_some hn, Bool.not_false, Bool.true_and]
    exact (decide_not (p := a = q)).symm

/-! ## Pieces -/

/-- What a call makes of a piece that begins at `start`, if the line behind it has a number. -/
def called? (start : Cursor source) (errors : Array ScanError) (r : Outcome × Cursor source) :
    Option (Called source) :=
  r.2.ifNumbered (r.1.result, ((start.withErrors errors).after r.1 r.2).toByteLexer start)

/-- A place within a token that began at `start`. -/
structure Within (start c : Cursor source) : Prop where
  pos_le : start.pos ≤ c.pos
  line_le : c.line ≤ ByteCursor.lastLine

theorem Within.reads {d : Cursor source} {s : List Char} (h : Within start c) (hr : c.Reads d s)
    (hd : d.line ≤ ByteCursor.lastLine) : Within start d :=
  ⟨String.Pos.le_trans h.pos_le hr.pos_le, hd⟩

theorem lexeme?_toByteLexer (h : start.pos ≤ c.pos) :
    ((c.withErrors errors).toByteLexer start).lexeme? = some (c.textFrom start.pos) := by
  rw [lexeme?]
  exact Cursor.slice?_position h

theorem token_toByteLexer (h : Within start c) (kind : Kind) (literal : Option Literal) :
    ((c.withErrors errors).toByteLexer start).token kind literal =
      called? start errors (start.tokenTo c kind literal, c) := by
  rw [token, lexeme?_toByteLexer h.pos_le, called?, Cursor.ifNumbered_of_le h.line_le]
  rfl

theorem operator_toByteLexer (h : Within start c) (alone withEqual : Kind) :
    ((c.withErrors errors).toByteLexer start).operator alone withEqual =
      called? start errors (start.operator c alone withEqual) := by
  rw [operator, Cursor.operator]
  show (c.toByteCursor.matchChar '=').bind _ = _
  rw [ByteCursor.matchChar_toByteCursor h.line_le]
  rcases c.matchChar_cases '=' with ⟨d, hd, hr⟩ | ⟨hd, -⟩
  · rw [hd]
    exact Cursor.bind_ifNumbered (Nat.le_refl _) fun hline =>
      token_toByteLexer (h.reads hr hline) withEqual none
  · rw [hd]
    exact Cursor.bind_ifNumbered (Nat.le_refl _) fun _ => token_toByteLexer h alone none

theorem slash_toByteLexer (h : Within start c) :
    ((c.withErrors errors).toByteLexer start).slash =
      called? start errors (start.slash c) := by
  rw [slash, Cursor.slash]
  show (c.toByteCursor.matchChar '/').bind _ = _
  rw [ByteCursor.matchChar_toByteCursor h.line_le]
  rcases c.matchChar_cases '/' with ⟨d, hd, hr⟩ | ⟨hd, -⟩
  · rw [hd]
    refine Cursor.bind_ifNumbered (d.reads_advanceWhile _).line_le fun hline => ?_
    show (d.toByteCursor.skipWhile _).bind _ = _
    rw [skipTo_toByteCursor hline]
    refine Cursor.bind_ifNumbered (Nat.le_refl _) fun hstop => ?_
    rw [Cursor.ifNumbered_of_le hstop]
    rfl
  · rw [hd]
    exact Cursor.bind_ifNumbered (Nat.le_refl _) fun _ => token_toByteLexer h .slash none

/-- Between its two quotes, a string can be cut out of its text. -/
theorem slice?_quoted (s : List Char) :
    slice? (String.ofList (['"'] ++ s ++ ['"'])) 1
      ((String.ofList (['"'] ++ s ++ ['"'])).utf8ByteSize - 1) = some (String.ofList s) := by
  have hsize : (String.ofList (['"'] ++ s ++ ['"'])).utf8ByteSize - 1 =
      (String.ofList (['"'] ++ s)).utf8ByteSize := by
    rw [String.ofList_append, String.utf8ByteSize_append]
    rfl
  rw [hsize]
  exact Cursor.slice?_of_append (p := ['"']) String.toList_ofList

theorem string_toByteLexer (hn : start.next? = some ('"', c)) (h : Within start c) :
    ((c.withErrors errors).toByteLexer start).string =
      called? start errors (start.string c) := by
  have hbody := c.reads_advanceWhile fun a => a ≠ '"'
  rw [string, Cursor.string]
  show (c.toByteCursor.skipWhile _).bind _ = _
  rw [skipTo_toByteCursor h.line_le]
  cases hl : (c.advanceWhile fun a => a ≠ '"').next? with
  | none =>
    refine Cursor.bind_ifNumbered (Nat.le_refl _) fun hline => ?_
    rw [ByteCursor.atEnd_toByteCursor, if_pos (Cursor.atEnd_of_next?_eq_none hl),
      Cursor.ifNumbered_of_le hline]
    rfl
  | some r =>
    obtain ⟨b, d⟩ := r
    have hrest := Cursor.rest_of_next?_eq_some hl
    have hquote := Cursor.reads_of_next? hl
    -- the loop has stopped before the end, and so at a quote
    obtain rfl : b = '"' := by
      have hhead := Cursor.head?_rest_advanceWhile (hrest ▸ List.head?_cons)
      simpa using hhead
    have hr := ((Cursor.reads_of_next? hn).trans hbody).trans hquote
    refine Cursor.bind_ifNumbered hquote.line_le fun hline => ?_
    rw [ByteCursor.atEnd_toByteCursor, if_neg (Cursor.not_atEnd_of_next? hl),
      ByteCursor.advance_of_next? hl hline]
    refine Cursor.bind_ifNumbered (Nat.le_refl _) fun hlast => ?_
    show (((d.withErrors errors).toByteLexer start).lexeme?).bind _ = _
    rw [lexeme?_toByteLexer hr.pos_le, hr.textFrom_eq, Option.bind_some]
    rw [slice?_quoted, hbody.textFrom_eq]
    exact token_toByteLexer ⟨hr.pos_le, hlast⟩ .string _

theorem skipFraction_toByteCursor (hc : c.line ≤ ByteCursor.lastLine) :
    skipFraction c.toByteCursor =
      if c.atFraction then
        (c.advance.2.advanceWhile Char.isDigit).ifNumbered
          (c.advance.2.advanceWhile Char.isDigit).toByteCursor
      else some c.toByteCursor := by
  rw [skipFraction, ByteCursor.current_toByteCursor, ByteCursor.peek_toByteCursor]
  show (if c.atFraction then _ else _) = _
  rw [ByteCursor.advance_toByteCursor hc]
  congr 1
  exact Cursor.bind_ifNumbered (c.advance.2.reads_advanceWhile _).line_le skipDigits_toByteCursor

theorem number_toByteLexer (h : Within start c) :
    ((c.withErrors errors).toByteLexer start).number =
      called? start errors (start.number c) := by
  have hnumber : ∀ {stop : Cursor source}, Within start stop →
      ((((stop.withErrors errors).toByteLexer start).lexeme?).bind fun text =>
        ((stop.withErrors errors).toByteLexer start).token .number
          (some (.number ((Binary64.ofText? text).getD .zero)))) =
      called? start errors (start.numberTo stop, stop) := by
    intro stop hstop
    rw [lexeme?_toByteLexer hstop.pos_le]
    exact token_toByteLexer hstop .number _
  have hdigits := c.reads_advanceWhile Char.isDigit
  rw [number, Cursor.number]
  show (skipDigits c.toByteCursor).bind _ = _
  rw [skipDigits_toByteCursor h.line_le]
  generalize c.advanceWhile Char.isDigit = whole at hdigits ⊢
  cases hf : whole.atFraction with
  | false =>
    refine Cursor.bind_ifNumbered (Nat.le_refl _) fun hline => ?_
    show (skipFraction whole.toByteCursor).bind _ = _
    rw [skipFraction_toByteCursor hline, hf]
    exact hnumber (h.reads hdigits hline)
  | true =>
    obtain ⟨s, hpoint⟩ := whole.exists_reads_advance
    have hstop := hpoint.trans (whole.advance.2.reads_advanceWhile Char.isDigit)
    refine Cursor.bind_ifNumbered hstop.line_le fun hline => ?_
    show (skipFraction whole.toByteCursor).bind _ = _
    rw [skipFraction_toByteCursor hline, hf, if_pos rfl]
    exact Cursor.bind_ifNumbered (Nat.le_refl _) fun hlast =>
      hnumber (h.reads (hdigits.trans hstop) hlast)

theorem word_toByteLexer (h : Within start c) :
    ((c.withErrors errors).toByteLexer start).word =
      called? start errors (start.word c) := by
  have hword := c.reads_advanceWhile isWordPart
  rw [word, Cursor.word]
  show (c.toByteCursor.skipWhile _).bind _ = _
  rw [skipWord_toByteCursor h.line_le]
  refine Cursor.bind_ifNumbered (Nat.le_refl _) fun hline => ?_
  have hstop := h.reads hword hline
  show (((c.advanceWhile isWordPart).withErrors errors).toByteLexer start).lexeme?.bind _ = _
  rw [lexeme?_toByteLexer hstop.pos_le]
  exact token_toByteLexer hstop _ none

theorem readOf_toByteLexer {a : Char} (hn : start.next? = some (a, c)) (h : Within start c) :
    readOf (.of a) ((c.withErrors errors).toByteLexer start) =
      called? start errors (Cursor.pieceOf (.of a) start c) := by
  cases ha : Opening.of a with
  | single kind => exact token_toByteLexer h kind none
  | pair alone withEqual => exact operator_toByteLexer h alone withEqual
  | slash => exact slash_toByteLexer h
  | blank => exact (Cursor.ifNumbered_of_le h.line_le).symm
  | quote =>
    obtain rfl : a = '"' := Opening.of_eq_iff.mp ha
    exact string_toByteLexer hn h
  | digit => exact number_toByteLexer h
  | wordStart => exact word_toByteLexer h
  | other => exact (Cursor.ifNumbered_of_le h.line_le).symm

/-! ## Calls -/

/-- A piece goes on from its first character. -/
theorem line_le_pieceOf {a : Char} (hn : start.next? = some (a, c)) :
    c.line ≤ (Cursor.pieceOf (.of a) start c).2.line := by
  have hpiece := Cursor.isPiece_pieceOf hn
  have hline := (Cursor.reads_of_next? hn).line_eq
  obtain ⟨s, hr, hs⟩ : ∃ s, start.Reads (Cursor.pieceOf (.of a) start c).2 s ∧ s ≠ [] := by
    generalize Cursor.pieceOf (.of a) start c = r at hpiece
    obtain ⟨o, d⟩ := r
    replace hpiece : start.IsPiece d o := hpiece
    cases hpiece with
    | segment g hg hr => exact ⟨g.text, hr, hg.text_ne_nil⟩
    | openString hrest _ hr => exact ⟨_, hr, hrest ▸ List.cons_ne_nil _ _⟩
  -- the first of the characters read is `a`, and the line before it is the same
  obtain ⟨b, t, rfl⟩ := List.exists_cons_of_ne_nil hs
  have hrest := hr.rest_eq
  rw [Cursor.rest_of_next?_eq_some hn] at hrest
  obtain rfl : a = b := (List.cons.inj hrest).1
  rw [hr.line_eq, hline, List.count_cons, List.count_cons, List.count_nil]
  omega

/-- **One call** does what one step does, from wherever the last token began. -/
theorem scanToken_toByteLexer {l : Lexer source} (h : l.line ≤ ByteCursor.lastLine)
    (start : Cursor source) :
    (l.toByteLexer start).scanToken =
      l.step.2.cursor.ifNumbered (l.step.1, l.step.2.toByteLexer l.cursor) := by
  rw [scanToken, atEnd_toByteLexer, Lexer.step, Cursor.piece?]
  cases hn : l.cursor.next? with
  | none =>
    rw [if_pos (Cursor.atEnd_of_next?_eq_none hn)]
    exact (Cursor.ifNumbered_of_le h).symm
  | some r =>
    obtain ⟨a, c⟩ := r
    have hr := Cursor.reads_of_next? hn
    rw [if_neg (Cursor.not_atEnd_of_next? hn)]
    show (l.cursor.toByteCursor.advance).bind _ = _
    rw [ByteCursor.advance_of_next? hn h]
    exact Cursor.bind_ifNumbered (line_le_pieceOf hn) fun hline =>
      readOf_toByteLexer hn ⟨hr.pos_le, hline⟩

/-- **Any number of calls** does what as many steps do, if the line behind them has a number. -/
theorem afterCalls_toByteLexer {l : Lexer source} (h : l.line ≤ ByteCursor.lastLine)
    (start : Cursor source) (n : Nat) :
    ∃ start', (l.toByteLexer start).afterCalls n =
      (l.afterSteps n).cursor.ifNumbered ((l.afterSteps n).toByteLexer start') := by
  induction n generalizing l start with
  | zero => exact ⟨start, (Cursor.ifNumbered_of_le h).symm⟩
  | succ n ih =>
    obtain ⟨s, hr⟩ := l.step.2.exists_reads_afterSteps n
    by_cases hline : l.step.2.line ≤ ByteCursor.lastLine
    · obtain ⟨start', hcalls⟩ := ih hline l.cursor
      refine ⟨start', ?_⟩
      rw [afterCalls, scanToken_toByteLexer h]
      exact Cursor.bind_ifNumbered hr.line_le fun _ => hcalls
    · -- the calls that follow do not bring back a number
      refine ⟨start, ?_⟩
      rw [afterCalls, scanToken_toByteLexer h]
      exact Cursor.bind_ifNumbered hr.line_le fun hle => absurd hle hline

/-- A call that reads a piece is the step that reads it. -/
theorem scanToken_of_piece? {l : Lexer source} {o : Outcome} (h : l.cursor.LinesFit)
    (hp : l.cursor.piece? = some (o, c)) (start : Cursor source) :
    (l.toByteLexer start).scanToken = some (o.result, (l.after o c).toByteLexer l.cursor) ∧
      (l.after o c).cursor.LinesFit := by
  have hstep : l.step = (o.result, l.after o c) := by rw [Lexer.step, hp]
  obtain ⟨s, hr, -⟩ := l.exists_reads_step
  have hfit := hr.linesFit h
  rw [scanToken_toByteLexer h.line_le, Cursor.ifNumbered_of_le hfit.line_le]
  rw [hstep] at hfit ⊢
  exact ⟨rfl, hfit⟩

theorem scanTokensAfter_toByteLexer {l : Lexer source} (h : l.cursor.LinesFit)
    (start : Cursor source) (tokens : Array Token) :
    (l.toByteLexer start).scanTokensAfter tokens = some (l.finishAfter tokens) := by
  have hend : ∀ (l : Lexer source) (start : Cursor source),
      (l.toByteLexer start).cursor.atEnd = true ↔ l.cursor.piece? = none := by
    intro l start
    rw [atEnd_toByteLexer, Cursor.piece?_eq_none_iff, Cursor.atEnd_iff]
  fun_induction Lexer.finishAfter tokens l generalizing start with
  | case1 tokens l hp =>
    rw [scanTokensAfter, if_pos ((hend l start).mpr hp)]
    rfl
  | case2 tokens l o c hp e he =>
    obtain ⟨hscan, -⟩ := scanToken_of_piece? h hp start
    rw [scanTokensAfter, if_neg (by rw [hend, hp]; simp), hscan, he]
  | case3 tokens l o c hp t ht ih =>
    obtain ⟨hscan, hfit⟩ := scanToken_of_piece? h hp start
    have hless := ByteCursor.bytesLeft_toByteCursor_lt (Cursor.piece?_pos_lt hp)
    rw [scanTokensAfter, if_neg (by rw [hend, hp]; simp), hscan, ht]
    exact (dif_pos hless).trans (ih hfit l.cursor)
  | case4 tokens l o c hp hnone ih =>
    obtain ⟨hscan, hfit⟩ := scanToken_of_piece? h hp start
    have hless := ByteCursor.bytesLeft_toByteCursor_lt (Cursor.piece?_pos_lt hp)
    rw [scanTokensAfter, if_neg (by rw [hend, hp]; simp), hscan, hnone]
    exact (dif_pos hless).trans (ih hfit l.cursor)

/-- **Scanning to the end** from wherever a lexer is, if all lines have numbers. -/
theorem scanTokens_toByteLexer {l : Lexer source} (h : l.cursor.LinesFit) (start : Cursor source) :
    (l.toByteLexer start).scanTokens = some l.finish :=
  scanTokensAfter_toByteLexer h start #[]

theorem start_eq_toByteLexer (source : String) :
    ByteLexer.start source = (Lexer.start source).toByteLexer (.start source) := by
  rw [ByteLexer.start, Lexer.toByteLexer, ByteCursor.start_eq_toByteCursor, Cursor.position_eq,
    Lexer.start, Cursor.consumed_start]
  rfl

end ByteLexer

end Lox
