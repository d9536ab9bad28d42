/-!
# Kinds of tokens

A word that is spelled like one of the sixteen keywords is that keyword; there is no other
difference between keywords and identifiers. Each kind has a name in capitals, which is how it is
shown and how it is written to texts that other programs read.
-/

namespace Lox

/-- The reserved words. -/
inductive Keyword where
  | and_ | class_ | else_ | false_ | fun_ | for_ | if_ | nil_
  | or_ | print_ | return_ | super_ | this_ | true_ | var_ | while_
deriving DecidableEq, Repr

namespace Keyword

def all : List Keyword :=
  [and_, class_, else_, false_, fun_, for_, if_, nil_,
    or_, print_, return_, super_, this_, true_, var_, while_]

/-- The name of a keyword as a kind of token. -/
def name : Keyword → String
  | and_ => "AND"
  | class_ => "CLASS"
  | else_ => "ELSE"
  | false_ => "FALSE"
  | fun_ => "FUN"
  | for_ => "FOR"
  | if_ => "IF"
  | nil_ => "NIL"
  | or_ => "OR"
  | print_ => "PRINT"
  | return_ => "RETURN"
  | super_ => "SUPER"
  | this_ => "THIS"
  | true_ => "TRUE"
  | var_ => "VAR"
  | while_ => "WHILE"

end Keyword

inductive Kind where
  | leftParen | rightParen | leftBrace | rightBrace
  | comma | dot | minus | plus | semicolon | slash | star
  | bang | bangEqual | equal | equalEqual | greater | greaterEqual | less | lessEqual
  | identifier | string | number
  | keyword (w : Keyword)
  /-- The end of the text, after the last token. -/
  | eof
deriving DecidableEq, Repr

namespace Kind

def all : List Kind :=
  [leftParen, rightParen, leftBrace, rightBrace, comma, dot, minus, plus, semicolon, slash, star,
    bang, bangEqual, equal, equalEqual, greater, greaterEqual, less, lessEqual,
    identifier, string, number] ++ Keyword.all.map keyword ++ [eof]

def name : Kind → String
  | leftParen => "LEFT_PAREN"
  | rightParen => "RIGHT_PAREN"
  | leftBrace => "LEFT_BRACE"
  | rightBrace => "RIGHT_BRACE"
  | comma => "COMMA"
  | dot => "DOT"
  | minus => "MINUS"
  | plus => "PLUS"
  | semicolon => "SEMICOLON"
  | slash => "SLASH"
  | star => "STAR"
  | bang => "BANG"
  | bangEqual => "BANG_EQUAL"
  | equal => "EQUAL"
  | equalEqual => "EQUAL_EQUAL"
  | greater => "GREATER"
  | greaterEqual => "GREATER_EQUAL"
  | less => "LESS"
  | lessEqual => "LESS_EQUAL"
  | identifier => "IDENTIFIER"
  | string => "STRING"
  | number => "NUMBER"
  | keyword w => w.name
  | eof => "EOF"

/-- The kind is one of the reserved words. -/
def isKeyword : Kind → Bool
  | keyword .and_ | keyword .class_ | keyword .else_ | keyword .false_
  | keyword .fun_ | keyword .for_ | keyword .if_ | keyword .nil_
  | keyword .or_ | keyword .print_ | keyword .return_ | keyword .super_
  | keyword .this_ | keyword .true_ | keyword .var_ | keyword .while_ => true
  | _ => false

/-- The kind with the given name. -/
def ofName? (s : String) : Option Kind := all.find? fun k => k.name = s

/-- The spellings of the reserved words in a program, each with its kind. -/
def reserved : List (String × Kind) :=
  [("and", keyword .and_), ("class", keyword .class_), ("else", keyword .else_),
    ("false", keyword .false_), ("for", keyword .for_), ("fun", keyword .fun_),
    ("if", keyword .if_), ("nil", keyword .nil_), ("or", keyword .or_),
    ("print", keyword .print_), ("return", keyword .return_), ("super", keyword .super_),
    ("this", keyword .this_), ("true", keyword .true_), ("var", keyword .var_),
    ("while", keyword .while_)]

/-- The kind of a word that is reserved. -/
def ofReserved? (s : String) : Option Kind := (reserved.find? fun p => p.1 = s).map Prod.snd

/-- The kind of a word: reserved, or else an identifier. -/
def ofWord (s : String) : Kind := (ofReserved? s).getD identifier

theorem mem_all (k : Kind) : k ∈ all := by
  cases k with
  | keyword w => cases w <;> decide
  | _ => decide

/-- A word that is found is one of those that are reserved. -/
theorem mem_reserved_of_ofReserved? {s : String} {k : Kind} (h : ofReserved? s = some k) :
    (s, k) ∈ reserved := by
  obtain ⟨p, hp, rfl⟩ := Option.map_eq_some_iff.mp h
  obtain rfl : p.1 = s :=
    of_decide_eq_true (List.find?_some (p := fun p : String × Kind => decide (p.1 = s)) hp)
  exact List.mem_of_find?_eq_some hp

end Kind

end Lox
