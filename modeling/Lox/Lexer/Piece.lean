import Lox.Binary64.Text
import Lox.Cursor.Basic
import Lox.Lexer.Opening
import Lox.ScanError
import Lox.Token.Basic

/-!
# One piece of text

`Cursor.piece?` reads the next piece of a text: a token, a blank or a comment, a character that
starts no token, or a string that is never closed. It always takes the longest piece that its
first character allows: operators take an equals sign that follows, words and numbers run on as
long as they can, and the point of a number belongs to it only if a digit follows.

A piece ends strictly behind where it started, so reading piece after piece comes to the end.
-/

namespace Lox

/-- What one piece of text is. -/
inductive Outcome where
  | token (t : Token)
  /-- A blank or a comment. -/
  | skipped
  /-- A character that starts no token, on this line. -/
  | unexpected (line : Nat)
  /-- A string that is not closed: the line where the text ends, and that of its opening quote. -/
  | unterminated (line startLine : Nat)
deriving DecidableEq

namespace Cursor

variable {source : String}

/-- The token between two cursors. -/
def tokenTo (start stop : Cursor source) (kind : Kind) (literal : Option Literal := none) :
    Outcome :=
  .token { kind, lexeme := stop.textFrom start.pos, literal, line := start.line }

/-- An operator, which takes an equals sign that follows. -/
def operator (start c : Cursor source) (alone withEqual : Kind) : Outcome × Cursor source :=
  match c.matchChar '=' with
  | (true, d) => (start.tokenTo d withEqual, d)
  | (false, d) => (start.tokenTo d alone, d)

/-- A slash, or a comment up to the end of the line. -/
def slash (start c : Cursor source) : Outcome × Cursor source :=
  match c.matchChar '/' with
  | (true, d) => (.skipped, d.advanceWhile fun a => a ≠ '\n')
  | (false, d) => (start.tokenTo d .slash, d)

/-- A string up to the closing quote. Nothing in it is special, and it may span lines. -/
def string (start c : Cursor source) : Outcome × Cursor source :=
  let last := c.advanceWhile fun a => a ≠ '"'
  match last.next? with
  | some (_, d) => (start.tokenTo d .string (some (.string (last.textFrom c.pos))), d)
  | none => (.unterminated last.line start.line, last)

/-- The token of a number, which denotes what its text denotes, or zero if that is nothing. -/
def numberTo (start stop : Cursor source) : Outcome :=
  start.tokenTo stop .number
    (some (.number ((Binary64.ofText? (stop.textFrom start.pos)).getD .zero)))

/-- A point comes next, and a digit behind it. -/
def atFraction (c : Cursor source) : Bool := c.current == '.' && (c.peek 1).isDigit

/-- A number: digits, and a point and more digits if a digit follows the point. -/
def number (start c : Cursor source) : Outcome × Cursor source :=
  let whole := c.advanceWhile Char.isDigit
  match whole.atFraction with
  | true =>
    let stop := whole.advance.2.advanceWhile Char.isDigit
    (start.numberTo stop, stop)
  | false => (start.numberTo whole, whole)

/-- A word: a keyword or an identifier. -/
def word (start c : Cursor source) : Outcome × Cursor source :=
  let stop := c.advanceWhile isWordPart
  (start.tokenTo stop (.ofWord (stop.textFrom start.pos)), stop)

/-- The piece that starts at `start` with a character that promises `opening`. -/
def pieceOf (opening : Opening) (start c : Cursor source) : Outcome × Cursor source :=
  match opening with
  | .single kind => (start.tokenTo c kind, c)
  | .pair alone withEqual => start.operator c alone withEqual
  | .slash => start.slash c
  | .blank => (.skipped, c)
  | .quote => start.string c
  | .digit => start.number c
  | .wordStart => start.word c
  | .other => (.unexpected c.line, c)

/-- The next piece of the text and the cursor behind it, or nothing at the end. -/
def piece? (c : Cursor source) : Option (Outcome × Cursor source) :=
  match c.next? with
  | some (a, d) => some (pieceOf (.of a) c d)
  | none => none

/-! ## A piece ends behind where it started -/

theorem pos_le_advance (c : Cursor source) : c.pos ≤ c.advance.2.pos := by
  unfold advance
  cases h : c.next? with
  | none => exact String.Pos.le_refl _
  | some r => exact String.Pos.le_of_lt (next?_pos_lt (a := r.1) (d := r.2) h)

theorem pos_le_pieceOf (opening : Opening) (start c : Cursor source) :
    c.pos ≤ (pieceOf opening start c).2.pos := by
  cases opening with
  | single kind => exact String.Pos.le_refl _
  | pair alone withEqual =>
    have h := c.pos_le_matchChar '='
    simp only [pieceOf, operator]
    split
    · next hm => rw [hm] at h; exact h
    · next hm => rw [hm] at h; exact h
  | slash =>
    have h := c.pos_le_matchChar '/'
    simp only [pieceOf, slash]
    split
    · next hm => rw [hm] at h; exact String.Pos.le_trans h (pos_le_advanceWhile _ _)
    · next hm => rw [hm] at h; exact h
  | blank => exact String.Pos.le_refl _
  | quote =>
    have h := pos_le_advanceWhile (fun a => a ≠ '"') c
    simp only [pieceOf, string]
    split
    · next hn => exact String.Pos.le_trans h (String.Pos.le_of_lt (next?_pos_lt hn))
    · exact h
  | digit =>
    have h := pos_le_advanceWhile Char.isDigit c
    simp only [pieceOf, number]
    split
    · exact String.Pos.le_trans h
        (String.Pos.le_trans (pos_le_advance _) (pos_le_advanceWhile _ _))
    · exact h
  | wordStart => exact pos_le_advanceWhile _ _
  | other => exact String.Pos.le_refl _

theorem piece?_pos_lt {c d : Cursor source} {o : Outcome} (h : c.piece? = some (o, d)) :
    c.pos < d.pos := by
  unfold piece? at h
  split at h
  · next a e hn =>
    have hle := pos_le_pieceOf (.of a) c e
    simp only [Option.some.injEq] at h
    rw [h] at hle
    exact String.Pos.lt_of_lt_of_le (next?_pos_lt hn) hle
  · simp at h

end Cursor

end Lox
