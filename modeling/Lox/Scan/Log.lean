import Lox.Lexer.Basic

/-!
# What a scan tells about itself

A scan opens a span, reports each token and each fault as it meets them, sums up at the end, and
closes the span. A string that is never closed takes the place of the summary. The token for the
end of the text is counted but not reported.
-/

namespace Lox

/-- How important an event is. -/
inductive Importance where
  | debug
  | trace
deriving DecidableEq, Repr

/-- The importance in capitals. -/
def Importance.name : Importance → String
  | .debug => "DEBUG"
  | .trace => "TRACE"

/-- Something that a scan reports. -/
inductive Event where
  /-- The span opens, over a text of so many bytes. -/
  | opened (length : Nat)
  | entered
  | token (kind : Kind) (line : Nat) (lexeme : String)
  | unexpected (line : Nat)
  | unterminated (line startLine : Nat)
  /-- The end, with the numbers of tokens and of recorded faults. -/
  | finished (tokens errors : Nat)
  | exited
deriving DecidableEq, Repr

namespace Event

/-- The importance of an event. -/
def importance : Event → Importance
  | token .. => .trace
  | _ => .debug

/-- The event in words. -/
def message : Event → String
  | opened _ => "scan"
  | entered => "enter"
  | token .. => "token"
  | unexpected line => (ScanError.unexpectedCharacter line).message
  | unterminated line _ => (ScanError.unterminatedString line).message
  | finished .. => "scan finished"
  | exited => "exit"

/-- The event is that of a string that is never closed. -/
def isFatal : Event → Bool
  | unterminated .. => true
  | _ => false

end Event

namespace Lexer

variable {source : String}

/-- The events of everything that is still ahead, behind those of the pieces before. -/
def logAfter (tokens : Nat) (events : Array Event) (l : Lexer source) : Array Event :=
  match _h : l.cursor.piece? with
  | none => events.push (.finished (tokens + 1) l.errors.size)
  | some (o, c) =>
    match o with
    | .token t => (l.after o c).logAfter (tokens + 1) (events.push (.token t.kind t.line t.lexeme))
    | .skipped => (l.after o c).logAfter tokens events
    | .unexpected line => (l.after o c).logAfter tokens (events.push (.unexpected line))
    | .unterminated line startLine => events.push (.unterminated line startLine)
termination_by l.cursor.pos
decreasing_by all_goals exact Cursor.piece?_pos_lt _h

end Lexer

/-- The events of a scan. -/
def scanLog (source : String) : List Event :=
  (((Lexer.start source).logAfter 0 #[.opened source.utf8ByteSize, .entered]).push .exited).toList

end Lox
