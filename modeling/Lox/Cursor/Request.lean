import Lox.Cursor.Basic

/-!
# Asking a cursor

The questions one can put to a cursor, one after the other. Two of them move it; a text that is
asked for from a place that is no place of the text, or that lies ahead, is refused and moves
nothing.
-/

namespace Lox.Cursor

variable {source : String}

inductive Request where
  | advance
  | current
  /-- The character so many bytes ahead. -/
  | peek (offset : Nat)
  | matchChar (expected : Char)
  /-- The text from a byte of the source up to the cursor. -/
  | sliceFrom (offset : Nat)
  | remaining
  | source
deriving DecidableEq, Repr

inductive Answer where
  | char (c : Char)
  | bool (b : Bool)
  | text (s : String)
  /-- The place asked for is not before the cursor and between two characters. -/
  | refused
deriving DecidableEq, Repr

/-- The answer to one question, and the cursor after it. -/
def ask (c : Cursor source) : Request → Answer × Cursor source
  | .advance => (.char c.advance.1, c.advance.2)
  | .current => (.char c.current, c)
  | .peek offset => (.char (c.peek offset), c)
  | .matchChar expected => (.bool (c.matchChar expected).1, (c.matchChar expected).2)
  | .sliceFrom offset =>
    match c.sliceFrom? offset with
    | some s => (.text s, c)
    | none => (.refused, c)
  | .remaining => (.text c.remaining, c)
  | .source => (.text source, c)

/-- The answers to a sequence of questions, each with the cursor after it. -/
def askAll (c : Cursor source) : List Request → List (Answer × Cursor source)
  | [] => []
  | r :: rs => c.ask r :: (c.ask r).2.askAll rs

end Lox.Cursor
