import Lox.Diagnostic.Basic

/-!
# What can be wrong with a text

There are two faults. A character that starts no token is passed over and scanning goes on; a
string that is not closed takes the rest of the text with it and ends the scan.
-/

namespace Lox

/-- A fault of a text, with the line on which it was noticed. -/
inductive ScanError where
  | unexpectedCharacter (line : Nat)
  | unterminatedString (line : Nat)
deriving DecidableEq, Repr

namespace ScanError

def line : ScanError → Nat
  | unexpectedCharacter line => line
  | unterminatedString line => line

def message : ScanError → String
  | unexpectedCharacter _ => "Unexpected character"
  | unterminatedString _ => "Unterminated string"

/-- The code under which the fault is reported. -/
def code : ScanError → Code
  | unexpectedCharacter _ => .unexpectedCharacter
  | unterminatedString _ => .unterminatedString

def isFatal : ScanError → Bool
  | unexpectedCharacter _ => false
  | unterminatedString _ => true

/-- The fault as a diagnostic of the error level. -/
def toDiagnostic (e : ScanError) : Diagnostic where
  level := .error
  message := e.message
  line := e.line
  code := some e.code

end ScanError

end Lox
