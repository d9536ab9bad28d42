import Lox.Handler.Basic
import Lox.Lexer.Basic

/-!
# Reporting a scan

The faults of a scan become diagnostics of a handler: the recorded ones in the order of the text,
or, when a string is never closed, that fault alone.
-/

namespace Lox

/-- Emits the recorded faults of a scan, up to the first that halts. -/
def Scanned.report (s : Scanned) (h : Handler) : Option Halt × Handler :=
  h.emitAll (s.errors.map ScanError.toDiagnostic)

namespace Handler

/-- The result of something that may be halted, with the handler afterwards. -/
abbrev Halting (α : Type) := Except Halt α × Handler

/-- The given result unless there was a halt. -/
def orHalt {α : Type} (a : α) : Option Halt × Handler → Halting α
  | (none, h) => (.ok a, h)
  | (some halt, h) => (.error halt, h)

/-- Scans a text and reports its faults. There are tokens unless a string is never closed. -/
def scan (h : Handler) (source : String) : Halting (Option (List Token)) :=
  match Lox.scan source with
  | .ok s => orHalt (some s.tokens) (s.report h)
  | .error e => orHalt none (h.emit e.toDiagnostic)

end Handler

end Lox
