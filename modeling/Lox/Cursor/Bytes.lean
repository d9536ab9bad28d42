import Lox.Cursor.Request
import Lox.Text.Bytes

/-!
# A cursor that counts bytes

A place in a text is a place between two characters, and a `Cursor` can be nowhere else. Here the
same operations are done with nothing but a byte offset and the bytes of the text. A byte below 128
is a character, and no more has to be known of it; anything else is decoded from the text that
starts there. An offset may fall inside a character or past the end, and so a piece of text between
two offsets need not exist; and lines can be counted up to `lastLine` only.

An operation that cannot go on halts, which is `none`; so is a loop without end.
-/

namespace Lox

namespace Bytes

/-- The byte at an offset, unless the text ends before it. -/
def byteAt? (s : String) (i : Nat) : Option UInt8 := s.toByteArray.data[i]?

/-- The text between two offsets. Both must lie between two characters, the first not behind. -/
def slice? (s : String) (i j : Nat) : Option String :=
  match s.pos? ⟨i⟩, s.pos? ⟨j⟩ with
  | some p, some q => if p ≤ q then some (s.extract p q) else none
  | _, _ => none

/-- The text from an offset on. -/
def tail? (s : String) (i : Nat) : Option String := slice? s i s.utf8ByteSize

end Bytes

open Bytes

/-- An offset into `source`, with the number of the line that it is on. -/
@[ext] structure ByteCursor (source : String) where
  position : Nat
  line : Nat
deriving DecidableEq

namespace ByteCursor

variable {source : String}

/-- The greatest number a line can have. -/
def lastLine : Nat := Nat.pow 2 32 - 1

def start (source : String) : ByteCursor source := ⟨0, 1⟩

def atEnd (c : ByteCursor source) : Bool := source.utf8ByteSize ≤ c.position

/-- The line behind a byte on line `line`, as long as it has a number. -/
def lineAfter? (line : Nat) (b : UInt8) : Option Nat :=
  if b = '\n'.val.toUInt8 then if line < lastLine then some (line + 1) else none else some line

/-- The character decoded from the text that starts at an offset. -/
def decode (source : String) (i : Nat) : Char :=
  ((tail? source i).bind fun t => t.toList.head?).getD Cursor.nothing

/-- The character that starts `offset` bytes ahead. It is decoded only if one byte does not tell. -/
def peek (c : ByteCursor source) (offset : Nat) : Char :=
  match byteAt? source (c.position + offset) with
  | none => Cursor.nothing
  | some b => if b < 128 then Char.ofUInt8 b else decode source (c.position + offset)

def current (c : ByteCursor source) : Char := c.peek 0

/-- Reads one character; at the end it reads nothing and stays where it is. -/
def advance (c : ByteCursor source) : Option (Char × ByteCursor source) :=
  match byteAt? source c.position with
  | none => some (Cursor.nothing, c)
  | some b =>
    if b < 128 then
      (lineAfter? c.line b).map fun line => (Char.ofUInt8 b, ⟨c.position + 1, line⟩)
    else
      (tail? source c.position).map fun t =>
        match t.toList.head? with
        | some a => (a, { c with position := c.position + a.utf8Size })
        | none => (Cursor.nothing, c)

/-- Reads the next character if it is `expected`, and says whether it did. -/
def matchChar (c : ByteCursor source) (expected : Char) : Option (Bool × ByteCursor source) :=
  if c.atEnd ∨ c.current ≠ expected then some (false, c)
  else c.advance.map fun r => (true, r.2)

/-- How many bytes are left to read. -/
def bytesLeft (c : ByteCursor source) : Nat := source.utf8ByteSize - c.position

/-- Reads characters as long as `goesOn` says so of the cursor. A round that reads nothing leaves
the cursor as it was (`eq_or_bytesLeft_lt_of_advance`) and would be repeated without end. -/
def skipWhile (goesOn : ByteCursor source → Bool) (c : ByteCursor source) :
    Option (ByteCursor source) :=
  if goesOn c then
    match c.advance with
    | none => none
    | some (_, d) => if _h : d.bytesLeft < c.bytesLeft then d.skipWhile goesOn else none
  else some c
termination_by c.bytesLeft
decreasing_by exact _h

/-- The text from byte `offset` up to the cursor. -/
def sliceFrom? (c : ByteCursor source) (offset : Nat) : Option String :=
  slice? source offset c.position

def remaining? (c : ByteCursor source) : Option String := tail? source c.position

/-- Where a question that halts leaves the cursor. A line feed has been read by the time that the
line behind it turns out to have no number. -/
def afterHalt (c : ByteCursor source) : Cursor.Request → ByteCursor source
  | .advance | .matchChar _ =>
    match byteAt? source c.position with
    | some b => if b < 128 then { c with position := c.position + 1 } else c
    | none => c
  | _ => c

/-- The answer to one question, and the cursor after it. An operation that halts is refused. -/
def ask (c : ByteCursor source) (r : Cursor.Request) : Cursor.Answer × ByteCursor source :=
  let answer? : Option (Cursor.Answer × ByteCursor source) :=
    match r with
    | .advance => c.advance.map fun (a, d) => (.char a, d)
    | .current => some (.char c.current, c)
    | .peek offset => some (.char (c.peek offset), c)
    | .matchChar expected => (c.matchChar expected).map fun (b, d) => (.bool b, d)
    | .sliceFrom offset => (c.sliceFrom? offset).map fun s => (.text s, c)
    | .remaining => c.remaining?.map fun s => (.text s, c)
    | .source => some (.text source, c)
  answer?.getD (.refused, c.afterHalt r)

/-- The answers to a sequence of questions, each with the cursor after it. -/
def askAll (c : ByteCursor source) : List Cursor.Request → List (Cursor.Answer × ByteCursor source)
  | [] => []
  | r :: rs => c.ask r :: (c.ask r).2.askAll rs

end ByteCursor

end Lox
