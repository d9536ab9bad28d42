import Lox.Json.Number
import Lox.Json.Quoted

/-!
# The symbols of a JSON text

A JSON text is a sequence of symbols with blanks between them: brackets, commas, colons, the
three words, numbers and strings. What a text says depends on its symbols only, and not on how
they are set or spelled. A symbol takes as many characters as belong to it.
-/

namespace Lox.Json

/-- A symbol of a JSON text. -/
inductive Symbol where
  | openArray | closeArray | openObject | closeObject | comma | colon
  | null
  | bool (b : Bool)
  | number (n : Numeral)
  /-- A string, with the text it denotes if it denotes one. -/
  | string (text : Option String)
deriving DecidableEq, Repr

namespace Symbol

/-- How a symbol is written. -/
def chars : Symbol → List Char
  | openArray => ['[']
  | closeArray => [']']
  | openObject => ['\x7b']
  | closeObject => ['\x7d']
  | comma => [',']
  | colon => [':']
  | null => ['n', 'u', 'l', 'l']
  | bool true => ['t', 'r', 'u', 'e']
  | bool false => ['f', 'a', 'l', 's', 'e']
  | number n => n.chars
  | string (some s) => Quoted.chars s
  | string none => Quoted.lone

/-- The characters that may stand between symbols. -/
def isBlank (c : Char) : Bool := c = ' ' || c = '\t' || c = '\n' || c = '\r'

/-- Reads one symbol, which starts with the first character. -/
def read? : List Char → Option (Symbol × List Char)
  | '[' :: rest => some (openArray, rest)
  | ']' :: rest => some (closeArray, rest)
  | '\x7b' :: rest => some (openObject, rest)
  | '\x7d' :: rest => some (closeObject, rest)
  | ',' :: rest => some (comma, rest)
  | ':' :: rest => some (colon, rest)
  | 'n' :: 'u' :: 'l' :: 'l' :: rest => some (null, rest)
  | 't' :: 'r' :: 'u' :: 'e' :: rest => some (bool true, rest)
  | 'f' :: 'a' :: 'l' :: 's' :: 'e' :: rest => some (bool false, rest)
  | '"' :: cs => (Quoted.read? cs).map fun (t, rest) => (string t, rest)
  | cs => (Number.read? cs).map fun (n, rest) => (number n, rest)

theorem read?_length {cs rest : List Char} {s : Symbol} (h : read? cs = some (s, rest)) :
    rest.length < cs.length := by
  unfold read? at h
  split at h
  case h_10 =>
    simp only [Option.map_eq_some_iff, Prod.exists, Prod.mk.injEq] at h
    obtain ⟨t, tail, hq, -, rfl⟩ := h
    have := Quoted.read?_length hq
    simp only [List.length_cons]
    omega
  case h_11 =>
    simp only [Option.map_eq_some_iff, Prod.exists, Prod.mk.injEq] at h
    obtain ⟨n, tail, hn, -, rfl⟩ := h
    exact Number.read?_length hn
  all_goals
    simp only [Option.some.injEq, Prod.mk.injEq] at h
    obtain ⟨-, rfl⟩ := h
    simp only [List.length_cons]
    omega

/-- Reads symbols to the end of the text, behind those read before. -/
def readAllAfter (before : Array Symbol) (cs : List Char) : Option (List Symbol) :=
  match cs with
  | [] => some before.toList
  | c :: rest =>
    if isBlank c then readAllAfter before rest
    else
      match _h : read? (c :: rest) with
      | some (s, tail) => readAllAfter (before.push s) tail
      | none => none
termination_by cs.length
decreasing_by
  · simp
  · exact read?_length _h

/-- The symbols of a text. -/
def readAll (cs : List Char) : Option (List Symbol) := readAllAfter #[] cs

end Symbol

end Lox.Json
