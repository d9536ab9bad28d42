import Lox.Text.Digits

/-!
# Decimals and how they are written

A `Decimal` is a number `coefficient * 10 ^ exponent`. A `Numeral` is a way to write one: how
many of the digits stand after the point, and whether a power of ten is written behind them.
Different numerals may denote one decimal value (`1`, `1.0`, `10e-1`); a numeral fixes its text
up to the spelling of the power of ten. Where the length of numbers is limited, a numeral stands
for its first digits only and for the bare fact that others follow.
-/

namespace Lox

/-- The number `coefficient * 10 ^ exponent`. -/
structure Decimal where
  coefficient : Nat
  exponent : Int
deriving DecidableEq, Repr

namespace Decimal

/-- The same number without zeros at the end of the coefficient. -/
def normalize (d : Decimal) : Decimal :=
  if d.coefficient ≠ 0 ∧ d.coefficient % 10 = 0 then
    normalize ⟨d.coefficient / 10, d.exponent + 1⟩
  else d
termination_by d.coefficient
decreasing_by omega

def length (d : Decimal) : Nat := (Nat.toDigits 10 d.coefficient).length

/-- The power of ten of the first digit, when the number is written as `d.ddd * 10 ^ e`. -/
def leadingExponent (d : Decimal) : Int := d.exponent + d.length - 1

end Decimal

/--
A written decimal: a sign, the digits of `coefficient` with the last `places` of them after the
point, and a power of ten if one is written.
-/
structure Numeral where
  negative : Bool := false
  coefficient : Nat
  places : Nat := 0
  exponent : Option Int := none
deriving DecidableEq, Repr

namespace Numeral

/-- The numeral made of the digits before the point and the digits after it. -/
def ofParts (whole fraction : List Char) : Numeral where
  coefficient := Nat.ofDigitChars 10 (whole ++ fraction) 0
  places := fraction.length

/-- The number that is written, without its sign. -/
def absolute (n : Numeral) : Decimal := ⟨n.coefficient, n.exponent.getD 0 - n.places⟩

/--
The number that is read where only `limit` digits are told apart, counted from the first that is
not zero: whatever follows them is one digit 1, even if it is zeros. Zeros at the end of the
places after the point are no digits that follow.
-/
def abridged (limit : Nat) (n : Numeral) : Decimal :=
  let dropped := n.absolute.length - limit
  if dropped ≤ n.places ∧ n.coefficient % Nat.pow 10 dropped = 0 then n.absolute
  else ⟨n.coefficient / Nat.pow 10 dropped * 10 + 1, n.absolute.exponent + dropped - 1⟩

theorem abridged_of_length_le {limit : Nat} {n : Numeral} (h : n.absolute.length ≤ limit) :
    n.abridged limit = n.absolute := by
  simp [abridged, Nat.sub_eq_zero_of_le h, Nat.mod_one]

/-- Neither a point nor a power of ten is written. -/
def isPlain (n : Numeral) : Bool := n.places = 0 ∧ n.exponent = none

/-- The written power of ten, always with its sign. -/
def exponentChars : Option Int → List Char
  | none => []
  | some e => 'e' :: (if e < 0 then '-' else '+') :: Nat.toDigits 10 e.natAbs

/-- The characters of a numeral: at least one digit stands before the point. -/
def chars (n : Numeral) : List Char :=
  let digits := Digits.padded 10 (n.places + 1) n.coefficient
  let whole := digits.length - n.places
  (if n.negative then ['-'] else []) ++ digits.take whole ++
    (if n.places = 0 then [] else '.' :: digits.drop whole) ++ exponentChars n.exponent

def text (n : Numeral) : String := String.ofList n.chars

end Numeral

namespace Decimal

/-- Written without a power of ten, and with at least `least` places after the point. -/
def positional (d : Decimal) (least : Nat) : Numeral :=
  match d.exponent with
  | .ofNat k => { coefficient := d.coefficient * Nat.pow 10 (k + least), places := least }
  | .negSucc k =>
    { coefficient := d.coefficient * Nat.pow 10 (least - (k + 1)), places := max (k + 1) least }

/-- Written with one digit before the point and a power of ten. -/
def scientific (d : Decimal) : Numeral where
  coefficient := d.coefficient
  places := d.length - 1
  exponent := some d.leadingExponent

end Decimal

end Lox
