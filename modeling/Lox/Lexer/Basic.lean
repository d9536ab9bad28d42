import Lox.Lexer.Piece

/-!
# The lexer

A lexer reads a text piece by piece and records the characters that start no token. It can be
asked for one piece at a time, or for everything that is still ahead. A string that is never
closed is not recorded: it is the answer of the step that meets it, the lexer is then at the end,
and further steps find nothing.
-/

namespace Lox

/-- A cursor into the text, and the faults recorded so far. -/
structure Lexer (source : String) where
  cursor : Cursor source
  errors : Array ScanError := #[]
deriving DecidableEq

/-- The tokens of a text, with the faults that were passed over. -/
structure Scanned where
  tokens : List Token
  errors : List ScanError
deriving DecidableEq

/-- Nothing was passed over. -/
def Scanned.isClean (s : Scanned) : Bool := s.errors.isEmpty

/-- What a step answers: a token if the piece is one, or the fault that ends the scan. -/
def Outcome.result : Outcome → Except ScanError (Option Token)
  | .token t => .ok (some t)
  | .skipped => .ok none
  | .unexpected _ => .ok none
  | .unterminated line _ => .error (.unterminatedString line)

/-- The fault that a step records. -/
def Outcome.recorded? : Outcome → Option ScanError
  | .unexpected line => some (.unexpectedCharacter line)
  | _ => none

namespace Lexer

variable {source : String}

/-- A lexer at the beginning of a text. -/
def start (source : String) : Lexer source := { cursor := .start source }

/-- The number of bytes read. -/
def position (l : Lexer source) : Nat := l.cursor.position

/-- The line of the next character. -/
def line (l : Lexer source) : Nat := l.cursor.line

/-- The lexer after a piece: it stands behind it and has recorded its fault. -/
def after (l : Lexer source) (o : Outcome) (c : Cursor source) : Lexer source where
  cursor := c
  errors := match o.recorded? with
    | some e => l.errors.push e
    | none => l.errors

/-- Reads one piece and answers with its token, if it is one. At the end nothing changes. -/
def step (l : Lexer source) : Except ScanError (Option Token) × Lexer source :=
  match l.cursor.piece? with
  | some (o, c) => (o.result, l.after o c)
  | none => (.ok none, l)

/-- Reads everything that is still ahead, behind the tokens read before. -/
def finishAfter (tokens : Array Token) (l : Lexer source) : Except ScanError Scanned :=
  match _h : l.cursor.piece? with
  | none =>
    .ok { tokens := (tokens.push (.endOfText l.line)).toList, errors := l.errors.toList }
  | some (o, c) =>
    match o.result with
    | .error e => .error e
    | .ok (some t) => (l.after o c).finishAfter (tokens.push t)
    | .ok none => (l.after o c).finishAfter tokens
termination_by l.cursor.pos
decreasing_by all_goals exact Cursor.piece?_pos_lt _h

/--
Reads everything that is still ahead. A string that is never closed discards the tokens; in all
other cases they end with the token for the end of the text.
-/
def finish (l : Lexer source) : Except ScanError Scanned := l.finishAfter #[]

/-! ## Step by step -/

/-- The answer of one step, and the lexer after it. -/
abbrev Stepped (source : String) := Except ScanError (Option Token) × Lexer source

/-- The next `n` steps, which may go on past the end. -/
def steps (l : Lexer source) : Nat → List (Stepped source)
  | 0 => []
  | n + 1 => l.step :: l.step.2.steps n

/-- The steps as long as there is text ahead, behind the steps made before. -/
def stepsAfter (done : Array (Stepped source)) (l : Lexer source) : List (Stepped source) :=
  match _h : l.cursor.piece? with
  | none => done.toList
  | some (o, c) => (l.after o c).stepsAfter (done.push (o.result, l.after o c))
termination_by l.cursor.pos
decreasing_by exact Cursor.piece?_pos_lt _h

/-- One step, and then as many as there is text for. -/
def stepsToEnd (l : Lexer source) : List (Stepped source) := l.step.2.stepsAfter #[l.step]

end Lexer

/-- The tokens and recorded faults of a text, or the fault that ends the scan. -/
def scan (source : String) : Except ScanError Scanned := (Lexer.start source).finish

end Lox
