import Lox.Text.Digits

/-!
# Diagnostic codes

A code is a family and a number, and is written as the family followed by at least four digits.
-/

namespace Lox

structure Code where
  family : String
  number : Nat
deriving DecidableEq, Repr

namespace Code

/-- The written form: the family, then the number with zeros in front up to four digits. -/
def text (c : Code) : String := c.family ++ String.ofList (Digits.padded 10 4 c.number)

/-- The written form, marked as a code. -/
def described (c : Code) : String := "DiagnosticCode(" ++ c.text ++ ")"

/-- A character that starts no token. -/
def unexpectedCharacter : Code := ⟨"E", 1001⟩

/-- A string that is not closed before the end of the text. -/
def unterminatedString : Code := ⟨"E", 1002⟩

end Code

end Lox
