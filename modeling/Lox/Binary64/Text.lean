import Lox.Binary64.Nearest
import Lox.Json.Number

/-!
# Doubles read from texts

A text denotes a double if it is a numeral, a name of infinity, or the name of what is no number,
each with a sign in front or without one. A numeral is a run of digits in which a point may stand
anywhere, and a power of ten may follow. Everything else denotes nothing: a point without digits,
a letter without a power, blanks.
-/

namespace Lox

/-- The numeral that a text without a sign spells. At least one digit stands beside the point. -/
def Numeral.unsigned? (cs : List Char) : Option Numeral :=
  let whole := cs.takeWhile Char.isDigit
  let (fraction, rest) := match cs.dropWhile Char.isDigit with
    | '.' :: tail => (tail.takeWhile Char.isDigit, tail.dropWhile Char.isDigit)
    | rest => ([], rest)
  match whole ++ fraction, Json.Number.exponent? rest with
  | _ :: _, some (exponent, []) => some { ofParts whole fraction with exponent }
  | _, _ => none

namespace Binary64

/-- Zero without a sign. -/
def zero : Binary64 := ⟨false, 0, by decide⟩

/-- The double that a text without a sign denotes, with the given sign. Names may be in capitals. -/
def unsigned? (negative : Bool) (cs : List Char) : Option Binary64 :=
  let name := String.ofList (cs.map Char.toLower)
  if name = "inf" ∨ name = "infinity" then some ⟨negative, infinity, infinity_lt⟩
  else if name = "nan" then some ⟨negative, infinity + Nat.pow 2 51, by decide⟩
  else (Numeral.unsigned? cs).map fun n => ofNumeral { n with negative }

/-- The double that a text denotes: of a numeral the nearest one. -/
def ofText? (text : String) : Option Binary64 :=
  match text.toList with
  | '-' :: cs => unsigned? true cs
  | '+' :: cs => unsigned? false cs
  | cs => unsigned? false cs

end Binary64

end Lox
