import Lox.Binary64.Shortest
import Lox.Token.Kind

/-!
# Tokens

A token is a kind, the piece of text it was read from, the line on which that piece starts, and
for numbers and strings the value they denote.
-/

namespace Lox

/-- The value that a token denotes. -/
inductive Literal where
  | number (x : Binary64)
  | string (s : String)
deriving DecidableEq

namespace Literal

/--
Numbers are shown without a power of ten and without a point behind whole numbers. The larger of
two equally near shortest decimals is shown.
-/
def style : NumberStyle := ⟨.up, 0, fun _ => true⟩

/-- A number as it is shown. -/
def numberText (x : Binary64) : String :=
  if x.isNaN then "NaN"
  else if x.isInfinite then (if x.negative then "-inf" else "inf")
  else (x.numeral style).text

/-- A value as it is shown: a string stands for itself. -/
def shown : Literal → String
  | number x => numberText x
  | string s => s

/-- Equality of values: numbers are compared as numbers, not by their bits. -/
def same : Literal → Literal → Bool
  | number x, number y => x.same y
  | string s, string t => s = t
  | _, _ => false

end Literal

/-- A token. -/
structure Token where
  kind : Kind
  /-- The piece of text the token was read from. -/
  lexeme : String
  literal : Option Literal := none
  /-- The line on which the lexeme starts. -/
  line : Nat
deriving DecidableEq

namespace Token

/-- The token behind the last one of a text. -/
def endOfText (line : Nat) : Token := { kind := .eof, lexeme := "", line := line }

/-- The number that a token denotes. -/
def number? (t : Token) : Option Binary64 :=
  match t.literal with
  | some (.number x) => some x
  | _ => none

/-- The string that a token denotes. -/
def string? (t : Token) : Option String :=
  match t.literal with
  | some (.string s) => some s
  | _ => none

/-- The shown form: the kind, the lexeme, and the value if there is one. -/
def shown (t : Token) : String :=
  t.kind.name ++ " " ++ t.lexeme ++
    (match t.literal with
      | some value => " " ++ value.shown
      | none => "")

/-- Equality of tokens, with numbers compared as numbers. -/
def same (t u : Token) : Bool :=
  t.kind = u.kind && t.lexeme = u.lexeme && t.line = u.line &&
    match t.literal, u.literal with
    | none, none => true
    | some v, some w => v.same w
    | _, _ => false

/-- Equality of token lists, with numbers compared as numbers. -/
def sameList : List Token → List Token → Bool
  | [], [] => true
  | t :: ts, u :: us => t.same u && sameList ts us
  | _, _ => false

end Token

end Lox
