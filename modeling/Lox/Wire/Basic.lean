import Lox.Json.Basic
import Lox.Token.Basic

/-!
# Tokens as JSON

A token is written as an object with its kind, its lexeme, its value and its line; the value is
an object that says whether it is a number or a string. Every token can be written, but an
infinity or a pattern that is no number is written as null, which is not read back.

Reading accepts the members in any order and passes over members it does not know, also takes
the four parts as an array, and takes a kind as an object whose only key names it. It insists on
everything else: no part may be missing or given twice, and a number must lie within the range of
doubles and a line below `2 ^ 32`. A number may have any number of digits, but only the first
768 of them are told apart.
-/

namespace Lox

/--
Numbers are written with a point or a power of ten. The even one of two equally near shortest
decimals is written.
-/
def wireStyle : NumberStyle := ⟨.even, 1, fun e => -5 ≤ e ∧ e ≤ 15⟩

/--
How many digits of a number are told apart. No double and no point halfway between two doubles
has more, so a number that goes on behind them with anything but zeros lies on the same side of
each of these points as its abridged form, and both have the same nearest double.
-/
def wireDigits : Nat := 768

/-- A text as a JSON value. -/
def Json.ofText (s : String) : Json := .string (some s)

/-- A natural number as a JSON value. -/
def Json.ofNat (n : Nat) : Json := .number { coefficient := n }

/-- The values that an object gives to a key. -/
def Json.valuesOf (key : String) (members : List Json.Member) : List Json :=
  members.filterMap fun (k, v) => if k = some key then some v else none

namespace Binary64

/-- A double as a JSON value; what is not finite becomes null. -/
def toJson (x : Binary64) : Json :=
  if x.isFinite then .number (x.numeral wireStyle) else .null

/-- The double nearest to a number, as far as its digits are told apart; it must be finite. -/
def ofJson? : Json → Option Binary64
  | .number n =>
    let x := ofDecimal n.negative (n.abridged wireDigits)
    if x.isFinite then some x else none
  | _ => none

end Binary64

namespace Kind

/-- A kind as a JSON value: its name. -/
def toJson (k : Kind) : Json := .ofText k.name

/-- The kind that is named, or that is the only key of an object with the value null. -/
def ofJson? : Json → Option Kind
  | .string (some s) => ofName? s
  | .object [(some s, .null)] => ofName? s
  | _ => none

end Kind

namespace Literal

/-- A value of a token as a JSON value. -/
def toJson : Literal → Json
  | number x => .object [(some "Number", x.toJson)]
  | string s => .object [(some "String", .ofText s)]

/-- The value of a token that is given as an object with one member. -/
def ofJson? : Json → Option Literal
  | .object [(some "Number", v)] => (Binary64.ofJson? v).map number
  | .object [(some "String", .string (some s))] => some (string s)
  | _ => none

/-- A value of a token or null. -/
def optionalOfJson? : Json → Option (Option Literal)
  | .null => some none
  | v => (ofJson? v).map some

end Literal

namespace Token

/-- A token as a JSON value. -/
def toJson (t : Token) : Json :=
  .object [(some "kind", t.kind.toJson), (some "lexeme", .ofText t.lexeme),
    (some "literal", (t.literal.map Literal.toJson).getD .null), (some "line", .ofNat t.line)]

/-- The lexeme that is given as a string. -/
def lexemeOfJson? : Json → Option String
  | .string t => t
  | _ => none

/-- The line that is given as a number without a sign, a point or a power of ten. -/
def lineOfJson? : Json → Option Nat
  | .number n =>
    if !n.negative && n.isPlain && n.coefficient < Nat.pow 2 32 then some n.coefficient
    else none
  | _ => none

/-- The token made of its four parts. -/
def ofParts? (kind lexeme literal line : Json) : Option Token := do
  let kind ← Kind.ofJson? kind
  let lexeme ← lexemeOfJson? lexeme
  let literal ← Literal.optionalOfJson? literal
  let line ← lineOfJson? line
  return { kind, lexeme, literal, line }

/-- The token that is given as an object or as an array of its four parts. -/
def ofJson? : Json → Option Token
  | .array [kind, lexeme, literal, line] => ofParts? kind lexeme literal line
  | .object members =>
    if members.all fun (key, _) => key.isSome then
      match Json.valuesOf "kind" members, Json.valuesOf "lexeme" members,
        Json.valuesOf "literal" members, Json.valuesOf "line" members with
      | [kind], [lexeme], [], [line] => ofParts? kind lexeme .null line
      | [kind], [lexeme], [literal], [line] => ofParts? kind lexeme literal line
      | _, _, _, _ => none
    else none
  | _ => none

/-- The tokens that are given as an array. -/
def listOfJson? : Json → Option (List Token)
  | .array items => items.mapM ofJson?
  | _ => none

end Token

namespace Wire

/-- A token as a text. -/
def writeToken (t : Token) : String := t.toJson.compact

/-- A list of tokens as a text. -/
def write (ts : List Token) : String := (Json.array (ts.map Token.toJson)).compact

/-- The tokens that a text gives. -/
def read? (text : String) : Option (List Token) := (Json.read? text).bind Token.listOfJson?

/-- The token that a text gives. -/
def readToken? (text : String) : Option Token := (Json.read? text).bind Token.ofJson?

/-- The kind that a text gives. -/
def readKind? (text : String) : Option Kind := (Json.read? text).bind Kind.ofJson?

/-- The value of a token that a text gives. -/
def readLiteral? (text : String) : Option Literal := (Json.read? text).bind Literal.ofJson?

end Wire

end Lox
