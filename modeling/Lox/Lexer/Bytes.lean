import Lox.Cursor.Bytes
import Lox.Lexer.Basic

/-!
# A lexer that counts bytes

The lexer once more, on a cursor that counts bytes. A token is cut out of the text at the end, from
the offset where it began up to the cursor, and the value of a string is cut out of the token, one
byte from either end. A call halts, which is `none`, if one of the offsets is not fit for this, or
if the cursor halts.
-/

namespace Lox

/-- A cursor, the place and the line where the token began, and the faults recorded so far. -/
@[ext] structure ByteLexer (source : String) where
  cursor : ByteCursor source
  tokenStart : Nat
  tokenStartLine : Nat
  errors : Array ScanError := #[]
deriving DecidableEq

namespace ByteLexer

variable {source : String}

def start (source : String) : ByteLexer source where
  cursor := .start source
  tokenStart := 0
  tokenStartLine := 1

/-- The answer of a call, and the lexer after it. -/
abbrev Called (source : String) := Except ScanError (Option Token) × ByteLexer source

/-- The lexer further on, in the same token. -/
def moveTo (l : ByteLexer source) (c : ByteCursor source) : ByteLexer source :=
  { l with cursor := c }

/-- The text from where the token began up to the cursor. -/
def lexeme? (l : ByteLexer source) : Option String := l.cursor.sliceFrom? l.tokenStart

/-- Answers with the token that ends at the cursor. -/
def token (l : ByteLexer source) (kind : Kind) (literal : Option Literal := none) :
    Option (Called source) :=
  l.lexeme?.map fun lexeme => (.ok (some { kind, lexeme, literal, line := l.tokenStartLine }), l)

/-- An operator, which takes an equals sign that follows. -/
def operator (l : ByteLexer source) (alone withEqual : Kind) : Option (Called source) := do
  let (matched, c) ← l.cursor.matchChar '='
  (l.moveTo c).token (if matched then withEqual else alone)

/-- A slash, or a comment up to the end of the line. -/
def slash (l : ByteLexer source) : Option (Called source) := do
  let (matched, c) ← l.cursor.matchChar '/'
  if matched then
    let d ← c.skipWhile fun c => !c.atEnd && c.current != '\n'
    return (.ok none, l.moveTo d)
  else (l.moveTo c).token .slash

/-- A string up to the closing quote. -/
def string (l : ByteLexer source) : Option (Called source) := do
  let c ← l.cursor.skipWhile fun c => !c.atEnd && c.current != '"'
  if c.atEnd then return (.error (.unterminatedString c.line), l.moveTo c)
  else
    let (_, d) ← c.advance
    let lexeme ← (l.moveTo d).lexeme?
    let value ← Bytes.slice? lexeme 1 (lexeme.utf8ByteSize - 1)
    (l.moveTo d).token .string (some (.string value))

def skipDigits (c : ByteCursor source) : Option (ByteCursor source) :=
  c.skipWhile fun c => c.current.isDigit

/-- A point and more digits, if a digit follows the point. -/
def skipFraction (c : ByteCursor source) : Option (ByteCursor source) :=
  if c.current == '.' && (c.peek 1).isDigit then do
    let (_, d) ← c.advance
    skipDigits d
  else some c

/-- A number: digits, and perhaps a point and more digits. -/
def number (l : ByteLexer source) : Option (Called source) := do
  let whole ← skipDigits l.cursor
  let stop ← skipFraction whole
  let text ← (l.moveTo stop).lexeme?
  (l.moveTo stop).token .number (some (.number ((Binary64.ofText? text).getD .zero)))

/-- A word: a keyword or an identifier. -/
def word (l : ByteLexer source) : Option (Called source) := do
  let stop ← l.cursor.skipWhile fun c => isWordPart c.current
  let text ← (l.moveTo stop).lexeme?
  (l.moveTo stop).token (.ofWord text)

/-- What is read behind a character that promises `opening`. -/
def readOf (opening : Opening) (l : ByteLexer source) : Option (Called source) :=
  match opening with
  | .single kind => l.token kind
  | .pair alone withEqual => l.operator alone withEqual
  | .slash => l.slash
  | .blank => some (.ok none, l)
  | .quote => l.string
  | .digit => l.number
  | .wordStart => l.word
  | .other =>
    some (.ok none, { l with errors := l.errors.push (.unexpectedCharacter l.cursor.line) })

/-- The lexer where the next token begins. -/
def atToken (l : ByteLexer source) : ByteLexer source :=
  { l with tokenStart := l.cursor.position, tokenStartLine := l.cursor.line }

/-- One call. It reads a character and whatever that starts; at the end it reads nothing. -/
def scanToken (l : ByteLexer source) : Option (Called source) :=
  if l.cursor.atEnd then some (.ok none, l.atToken)
  else do
    let (a, c) ← l.cursor.advance
    readOf (.of a) (l.atToken.moveTo c)

/-- The lexer after `n` calls, whatever they answer. -/
def afterCalls (l : ByteLexer source) : Nat → Option (ByteLexer source)
  | 0 => some l
  | n + 1 => do
    let (_, l) ← l.scanToken
    l.afterCalls n

/-- Makes calls until the end of the text, behind the tokens of the calls before. A call that reads
nothing would be repeated without end. -/
def scanTokensAfter (tokens : Array Token) (l : ByteLexer source) :
    Option (Except ScanError Scanned) :=
  if l.cursor.atEnd then
    some (.ok
      { tokens := (tokens.push (.endOfText l.cursor.line)).toList, errors := l.errors.toList })
  else
    match l.scanToken with
    | none => none
    | some (.error e, _) => some (.error e)
    | some (.ok token?, next) =>
      if _h : next.cursor.bytesLeft < l.cursor.bytesLeft then
        next.scanTokensAfter (match token? with | some t => tokens.push t | none => tokens)
      else none
termination_by l.cursor.bytesLeft
decreasing_by exact _h

def scanTokens (l : ByteLexer source) : Option (Except ScanError Scanned) := l.scanTokensAfter #[]

end ByteLexer

end Lox
