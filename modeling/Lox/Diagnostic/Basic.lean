import Lox.Diagnostic.Code

/-!
# Diagnostics

A diagnostic says something about one line of a text. It can also name a place on the line and
carry a code; both may be set again, and the last setting stands. A draft collects the same
settings, and the line among them, before the diagnostic is made.
-/

namespace Lox

/-- How serious a diagnostic is. -/
inductive Level where
  | error
  | warning
  | note
  | help
deriving DecidableEq, Repr

namespace Level

/-- The level in running text. -/
def name : Level → String
  | .error => "error"
  | .warning => "warning"
  | .note => "note"
  | .help => "help"

/-- The level at the head of a message. -/
def title : Level → String
  | .error => "Error"
  | .warning => "Warning"
  | .note => "Note"
  | .help => "Help"

end Level

/-- A message about one line of a text. -/
structure Diagnostic where
  level : Level
  message : String
  line : Nat
  /-- Where on the line, in words. -/
  location : Option String := none
  code : Option Code := none
deriving DecidableEq, Repr

namespace Diagnostic

/-- A setting that a diagnostic takes after it has been made. -/
inductive Setting where
  | code (c : Code)
  | location (place : String)
deriving DecidableEq, Repr

def set (d : Diagnostic) : Setting → Diagnostic
  | .code c => { d with code := some c }
  | .location place => { d with location := some place }

/-- The diagnostic with a sequence of settings, one after the other. -/
def setAll (d : Diagnostic) (settings : List Setting) : Diagnostic := settings.foldl set d

/--
The shown form: the line, the title, the location if there is one, and the message. A location
is set off by a space even when it is empty.
-/
def shown (d : Diagnostic) : String :=
  "[line " ++ d.line.repr ++ "] " ++ d.level.title ++
    (match d.location with
      | some place => " " ++ place
      | none => "") ++
    ": " ++ d.message

/-- The texts that the shown form is put together from, in their order. -/
def parts (d : Diagnostic) : List String :=
  ["[line ", d.line.repr, "] ", d.level.title] ++
    (match d.location with
      | some place => [" ", place]
      | none => []) ++
    [": ", d.message]

theorem join_parts (d : Diagnostic) : String.join d.parts = d.shown := by
  unfold parts shown
  cases d.location with
  | none => simp [String.append_assoc]
  | some place => simp [String.append_assoc]

end Diagnostic

/-- The settings of a diagnostic that is still to be made. -/
structure Draft where
  level : Level
  message : String
  line : Option Nat := none
  location : Option String := none
  code : Option Code := none
deriving DecidableEq, Repr

namespace Draft

inductive Setting where
  | line (n : Nat)
  | code (c : Code)
  | location (place : String)
deriving DecidableEq, Repr

def set (d : Draft) : Setting → Draft
  | .line n => { d with line := some n }
  | .code c => { d with code := some c }
  | .location place => { d with location := some place }

/-- The draft with a sequence of settings, one after the other. -/
def setAll (d : Draft) (settings : List Setting) : Draft := settings.foldl set d

/-- The diagnostic that a draft describes. A draft without a line is about line 1. -/
def finish (d : Draft) : Diagnostic where
  level := d.level
  message := d.message
  line := d.line.getD 1
  location := d.location
  code := d.code

end Draft

end Lox
