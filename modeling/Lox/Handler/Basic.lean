import Lox.Diagnostic.Basic

/-!
# Collecting diagnostics

A handler keeps the diagnostics that are emitted to it, in that order. One of the two kinds of
handlers halts whatever is being done when it is given an error, and keeps nothing of it.
-/

namespace Lox

/-- The diagnostics emitted so far, and whether an error halts. -/
structure Handler where
  haltsOnError : Bool
  diagnostics : Array Diagnostic := #[]
deriving DecidableEq

/-- An operation has been given up because of this diagnostic. -/
structure Halt where
  cause : Diagnostic
deriving DecidableEq, Repr

/-- What is said when an operation is given up. -/
def Halt.message (h : Halt) : String := "Diagnostic error: " ++ h.cause.shown

namespace Handler

/-- Adds a diagnostic, or halts and adds nothing. -/
def emit (h : Handler) (d : Diagnostic) : Option Halt × Handler :=
  if h.haltsOnError ∧ d.level = .error then (some ⟨d⟩, h)
  else (none, { h with diagnostics := h.diagnostics.push d })

/-- Adds diagnostics one after the other, up to the first that halts. -/
def emitAll (h : Handler) : List Diagnostic → Option Halt × Handler
  | [] => (none, h)
  | d :: ds =>
    match h.emit d with
    | (none, h') => h'.emitAll ds
    | (some halt, h') => (some halt, h')

/-- Adds an error with only a message and a line. -/
def error (h : Handler) (line : Nat) (message : String) : Option Halt × Handler :=
  h.emit { level := .error, message := message, line := line }

/-- Some diagnostic is an error. -/
def hasErrors (h : Handler) : Bool := h.diagnostics.any fun d => d.level = .error

/-- The number of errors. -/
def errorCount (h : Handler) : Nat := h.diagnostics.countP fun d => d.level = .error

/-- The number of warnings. -/
def warningCount (h : Handler) : Nat := h.diagnostics.countP fun d => d.level = .warning

/-- All diagnostics, one on a line. -/
def render (h : Handler) : String :=
  String.join (h.diagnostics.toList.map fun d => d.shown ++ "\n")

/-- Forgets all diagnostics. -/
def clear (h : Handler) : Handler := { h with diagnostics := #[] }

end Handler

end Lox
