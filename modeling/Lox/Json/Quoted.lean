import Lox.Text.Digits

/-!
# Quoted strings

A JSON string stands between quotes. A character is written as itself, by a short escape, or by
an escape of four hexadecimal digits, which names a 16-bit unit: a character beyond `U+FFFF` takes
two such units, a high and a low surrogate. A surrogate that has no partner names no character,
and a string that holds one denotes no text, although it is well formed.

Writing escapes as little as possible, and reading undoes it.
-/

namespace Lox.Json.Quoted

/-- One item between the quotes. -/
inductive Item where
  /-- A character, written as itself or by a short escape. -/
  | char (c : Char)
  /-- A 16-bit unit, written by its digits. -/
  | unit (n : Nat)
deriving DecidableEq, Repr

/-- The character that a short escape stands for. -/
def shortEscape? : Char → Option Char
  | '"' => some '"'
  | '\\' => some '\\'
  | '/' => some '/'
  | 'b' => some '\x08'
  | 'f' => some '\x0c'
  | 'n' => some '\n'
  | 'r' => some '\r'
  | 't' => some '\t'
  | _ => none

/-- The items up to the closing quote, behind those read before, and the rest of the text. -/
def itemsAfter (before : List Item) : List Char → Option (List Item × List Char)
  | '"' :: rest => some (before.reverse, rest)
  | '\\' :: 'u' :: a :: b :: c :: d :: rest =>
    match Digits.ofHex? [a, b, c, d] with
    | some n => itemsAfter (.unit n :: before) rest
    | none => none
  | '\\' :: e :: rest =>
    match shortEscape? e with
    | some c => itemsAfter (.char c :: before) rest
    | none => none
  | c :: rest => if c < ' ' then none else itemsAfter (.char c :: before) rest
  | [] => none

/-- A unit that opens a pair. -/
def isHigh (n : Nat) : Bool := 0xD800 ≤ n ∧ n < 0xDC00

/-- A unit that closes a pair. -/
def isLow (n : Nat) : Bool := 0xDC00 ≤ n ∧ n < 0xE000

/-- The character that a pair of surrogates names. -/
def paired (high low : Nat) : Char :=
  Char.ofNat (0x10000 + (high - 0xD800) * 0x400 + (low - 0xDC00))

/-- The text that items denote, behind the text of the items before, if they denote one. -/
def textAfter (before : String) : List Item → Option String
  | [] => some before
  | .char c :: items => textAfter (before.push c) items
  | .unit n :: .unit m :: items =>
    if isHigh n then (if isLow m then textAfter (before.push (paired n m)) items else none)
    else if isLow n then none
    else textAfter (before.push (Char.ofNat n)) (.unit m :: items)
  | .unit n :: items =>
    if isHigh n || isLow n then none else textAfter (before.push (Char.ofNat n)) items

/--
Reads a string behind its opening quote: the text it denotes, if it denotes one, and what comes
behind the closing quote.
-/
def read? (cs : List Char) : Option (Option String × List Char) :=
  match itemsAfter [] cs with
  | some (items, rest) => some (textAfter "" items, rest)
  | none => none

/-- How a character is written: escaped only if it has to be, and shortly if it can be. -/
def escaped (c : Char) : List Char :=
  if c = '"' then ['\\', '"']
  else if c = '\\' then ['\\', '\\']
  else if c = '\x08' then ['\\', 'b']
  else if c = '\x0c' then ['\\', 'f']
  else if c = '\n' then ['\\', 'n']
  else if c = '\r' then ['\\', 'r']
  else if c = '\t' then ['\\', 't']
  else if c < ' ' then '\\' :: 'u' :: Digits.padded 16 4 c.toNat
  else [c]

/-- A text as a quoted string. -/
def chars (s : String) : List Char := '"' :: s.toList.flatMap escaped ++ ['"']

/-- The shortest string that denotes no text: one lone surrogate. -/
def lone : List Char := ['"', '\\', 'u', 'd', '8', '0', '0', '"']

/-! ## Reading takes at least one character -/

theorem itemsAfter_length {before : List Item} {cs rest : List Char} {items : List Item}
    (h : itemsAfter before cs = some (items, rest)) : rest.length < cs.length := by
  fun_induction itemsAfter before cs with
  | case1 before tail =>
    simp only [Option.some.injEq, Prod.mk.injEq] at h
    obtain ⟨-, rfl⟩ := h
    simp
  | case2 before a b c d tail n hn ih => have := ih h; simp; omega
  | case3 => simp at h
  | case4 before e tail he c hc ih => have := ih h; simp; omega
  | case5 => simp at h
  | case6 => simp at h
  | case7 before c tail _ _ _ hc ih => have := ih h; simp; omega
  | case8 => simp at h

theorem read?_length {cs rest : List Char} {t : Option String} (h : read? cs = some (t, rest)) :
    rest.length < cs.length := by
  unfold read? at h
  split at h
  · next items tail hi =>
    simp only [Option.some.injEq, Prod.mk.injEq] at h
    obtain ⟨-, rfl⟩ := h
    exact itemsAfter_length hi
  · simp at h

end Lox.Json.Quoted
