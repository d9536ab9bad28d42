import Lox.Token.Kind

/-!
# What the first character of a piece of text promises

A piece of a program is recognised by its first character. Digits and letters are those of the
Latin alphabet without marks; every other character beyond the listed ones starts nothing.
-/

namespace Lox

/-- A letter or an underscore. -/
def isWordStart (c : Char) : Bool := c.isAlpha || c = '_'

/-- A letter, a digit or an underscore. -/
def isWordPart (c : Char) : Bool := isWordStart c || c.isDigit

/-- What a first character promises. -/
inductive Opening where
  /-- A token of this one character. -/
  | single (kind : Kind)
  /-- A token of this character, or of this one and an equals sign. -/
  | pair (alone withEqual : Kind)
  /-- A slash, which also opens a comment. -/
  | slash
  | blank
  | quote
  | digit
  | wordStart
  | other
deriving DecidableEq, Repr

/-- What a character promises when it comes first. -/
def Opening.of (c : Char) : Opening :=
  match c with
  | '(' => .single .leftParen
  | ')' => .single .rightParen
  | '{' => .single .leftBrace
  | '}' => .single .rightBrace
  | ',' => .single .comma
  | '.' => .single .dot
  | '-' => .single .minus
  | '+' => .single .plus
  | ';' => .single .semicolon
  | '*' => .single .star
  | '!' => .pair .bang .bangEqual
  | '=' => .pair .equal .equalEqual
  | '<' => .pair .less .lessEqual
  | '>' => .pair .greater .greaterEqual
  | '/' => .slash
  | ' ' | '\r' | '\t' | '\n' => .blank
  | '"' => .quote
  | c => if c.isDigit then .digit else if isWordStart c then .wordStart else .other

end Lox
