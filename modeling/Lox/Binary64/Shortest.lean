import Lox.Binary64.Nearest

/-!
# The shortest decimal that reads back

A finite double is written with the fewest digits that denote it: no decimal with fewer digits
has this double as its nearest. Among the decimals of that length that read back, the one nearest
to the double is taken, and the caller says which one when two are equally near.

On the grid of the multiples of one power of ten only the two neighbours of the double matter:
if any point of the grid reads back, so does one of them. So the grids are tried from coarse to
fine, and each test is a rounding. The exact decimal expansion, which every finite double has,
stands behind the last grid.
-/

namespace Lox

/-- Which of two equally near decimals is taken. -/
inductive Tie where
  /-- The larger one. -/
  | up
  /-- The one whose last digit is even. -/
  | even
deriving DecidableEq, Repr

namespace Binary64

/-- A fraction `n / d` over a power of ten: `n / d = (n' / d') * 10 ^ exponent`. -/
def overPower (n d : Nat) (exponent : Int) : Nat × Nat :=
  (n * Nat.pow 10 (-exponent).toNat, d * Nat.pow 10 exponent.toNat)

/-- The power of ten of the first digit of a positive multiple of a power of two. -/
def decimalExponent (n d : Nat) : Int :=
  if d ≤ n then (Nat.toDigits 10 (n / d)).length - 1
  else -((Nat.toDigits 10 (d / n)).length : Int)

/--
The neighbour of a magnitude on the grid of the multiples of `10 ^ exponent` that reads back as
the magnitude. If both do, the nearer one is taken.
-/
def onGrid? (tie : Tie) (magnitude : Nat) (exponent : Int) : Option Decimal :=
  let (n, d) := overPower (units magnitude) (Nat.pow 2 1074) exponent
  let below : Decimal := ⟨n / d, exponent⟩
  let above : Decimal := ⟨n / d + 1, exponent⟩
  let r := 2 * (n % d)
  let preferred :=
    if r < d ∨ r = d ∧ tie = .even ∧ n / d % 2 = 0 then [below, above] else [above, below]
  preferred.find? fun candidate => magnitudeOf candidate = magnitude

/-- The exact decimal expansion of a finite magnitude. -/
def expansion (magnitude : Nat) : Decimal := ⟨units magnitude * Nat.pow 5 1074, -1074⟩

/-- The shortest decimal that reads back as a finite magnitude. -/
def shortest (tie : Tie) (magnitude : Nat) : Decimal :=
  if magnitude = 0 then ⟨0, 0⟩
  else
    let leading := decimalExponent (units magnitude) (Nat.pow 2 1074)
    let found := (List.range 17).findSome? fun (k : Nat) => onGrid? tie magnitude (leading - k)
    (found.getD (expansion magnitude)).normalize

/-! ## The decisions that one output makes -/

end Binary64

/-- How doubles are written in one kind of output. -/
structure NumberStyle where
  /-- Which of two equally near shortest decimals is written. -/
  tie : Tie
  /-- How many places stand after the point at least, when no power of ten is written. -/
  leastPlaces : Nat
  /-- Whether a number with this leading power of ten is written without one. -/
  positional : Int → Bool

namespace Binary64

/-- The numeral that writes a finite double in the given style. -/
def numeral (style : NumberStyle) (x : Binary64) : Numeral :=
  let d := shortest style.tie x.magnitude
  let digits := if style.positional d.leadingExponent then d.positional style.leastPlaces
    else d.scientific
  { digits with negative := x.negative }

end Binary64

end Lox
