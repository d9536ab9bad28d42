import Lox.Json.Symbol

/-!
# JSON values

A value is a tree, and its symbols are read off the tree from left to right. Reading goes the
other way: it keeps the arrays and objects that are still open on a stack, and each symbol either
opens one, closes the innermost one, or adds to it. The order and the repetition of the members
of an object are kept; what they mean is for the reader of the value to say.
-/

namespace Lox

/-- A JSON value. -/
inductive Json where
  | null
  | bool (b : Bool)
  | number (n : Numeral)
  /-- A string, with the text it denotes if it denotes one. -/
  | string (text : Option String)
  | array (items : List Json)
  | object (members : List (Option String × Json))

namespace Json

/-- A key with its value. -/
abbrev Member := Option String × Json

mutual

/-- The symbols of a value. -/
def symbols : Json → List Symbol
  | .null => [.null]
  | .bool b => [.bool b]
  | .number n => [.number n]
  | .string t => [.string t]
  | .array items => .openArray :: itemSymbols items ++ [.closeArray]
  | .object members => .openObject :: memberSymbols members ++ [.closeObject]

/-- The symbols of the items of an array. -/
def itemSymbols : List Json → List Symbol
  | [] => []
  | [v] => v.symbols
  | v :: w :: vs => v.symbols ++ .comma :: itemSymbols (w :: vs)

/-- The symbols of the members of an object. -/
def memberSymbols : List (Option String × Json) → List Symbol
  | [] => []
  | [(k, v)] => .string k :: .colon :: v.symbols
  | (k, v) :: m :: ms => .string k :: .colon :: v.symbols ++ .comma :: memberSymbols (m :: ms)

end

/-- An array or an object that is still open, with what it holds so far, the last first. -/
inductive Frame where
  | array (items : List Json)
  /-- An object with the key whose value comes next. -/
  | object (members : List Member) (key : Option String)

/-- What comes next. -/
inductive Expected where
  | value
  /-- A member of an object that holds these members so far, the last first. -/
  | member (before : List Member)
  /-- What follows this value. -/
  | behind (v : Json)

/-- Reads symbols to the end, given what comes next and what is still open. -/
def build : Expected → List Frame → List Symbol → Option Json
  | .value, opened, .null :: ss => build (.behind .null) opened ss
  | .value, opened, .bool b :: ss => build (.behind (.bool b)) opened ss
  | .value, opened, .number n :: ss => build (.behind (.number n)) opened ss
  | .value, opened, .string t :: ss => build (.behind (.string t)) opened ss
  | .value, opened, .openArray :: .closeArray :: ss => build (.behind (.array [])) opened ss
  | .value, opened, .openArray :: ss => build .value (.array [] :: opened) ss
  | .value, opened, .openObject :: .closeObject :: ss => build (.behind (.object [])) opened ss
  | .value, opened, .openObject :: ss => build (.member []) opened ss
  | .member before, opened, .string k :: .colon :: ss =>
    build .value (.object before k :: opened) ss
  | .behind v, .array items :: opened, .comma :: ss =>
    build .value (.array (v :: items) :: opened) ss
  | .behind v, .array items :: opened, .closeArray :: ss =>
    build (.behind (.array (v :: items).reverse)) opened ss
  | .behind v, .object members k :: opened, .comma :: ss =>
    build (.member ((k, v) :: members)) opened ss
  | .behind v, .object members k :: opened, .closeObject :: ss =>
    build (.behind (.object ((k, v) :: members).reverse)) opened ss
  | .behind v, [], [] => some v
  | _, _, _ => none

/-- The value with the given symbols, if they are those of a value. -/
def ofSymbols? (ss : List Symbol) : Option Json := build .value [] ss

/-- A value as a text without blanks. -/
def compact (v : Json) : String := String.ofList (v.symbols.flatMap Symbol.chars)

/-- The value that a text says. -/
def read? (text : String) : Option Json := (Symbol.readAll text.toList).bind ofSymbols?

end Json

end Lox
