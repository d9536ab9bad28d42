import Lox.Text.Digits

/-!
# Doubles

The 64-bit binary floating-point numbers, by their interchange format: a sign bit and 63 bits of
magnitude. The magnitudes are ordered as the numbers are: counting up from zero they run through
the subnormal numbers, the normal numbers, infinity, and then the patterns that are not a number.
So the next double is the next magnitude, and rounding is arithmetic on natural numbers.

The finite magnitudes denote whole multiples of `2 ^ -1074`, the least subnormal number. Powers are
spelled `Nat.pow`, which is one function whatever else is imported.
-/

namespace Lox

/-- A double by its bit pattern. -/
@[ext] structure Binary64 where
  negative : Bool
  /-- The 63 bits below the sign. -/
  magnitude : Nat
  magnitude_lt : magnitude < Nat.pow 2 63
deriving DecidableEq

namespace Binary64

/-- The magnitude of infinity: all exponent bits and no others. -/
def infinity : Nat := 2047 * Nat.pow 2 52

theorem infinity_lt : infinity < Nat.pow 2 63 := by decide

def isNaN (x : Binary64) : Bool := infinity < x.magnitude

def isInfinite (x : Binary64) : Bool := x.magnitude = infinity

/-- The pattern denotes a real number. -/
def isFinite (x : Binary64) : Bool := x.magnitude < infinity

/-- The 64 bits, read as a natural number. -/
def bits (x : Binary64) : Nat := (if x.negative then Nat.pow 2 63 else 0) + x.magnitude

/-- The double with the given 64 bits. -/
def ofBits (n : Nat) : Binary64 where
  negative := n.testBit 63
  magnitude := n % Nat.pow 2 63
  magnitude_lt := Nat.mod_lt _ (by decide)

theorem bits_lt (x : Binary64) : x.bits < Nat.pow 2 64 := by
  have h := x.magnitude_lt
  simp only [bits, Nat.pow_eq] at h ⊢
  split <;> omega

theorem ofBits_bits (x : Binary64) : ofBits x.bits = x := by
  obtain ⟨s, m, hm⟩ := x
  rw [Nat.pow_eq] at hm
  have h63 : ∀ k : Nat, k.testBit 63 = decide (k / 2 ^ 63 % 2 = 1) := fun k => by
    rw [Nat.testBit_eq_decide_div_mod_eq]
  cases s
  · ext1
    · simp only [ofBits, bits, h63]
      simp
      omega
    · simp only [ofBits, bits]
      simp
      omega
  · ext1
    · simp only [ofBits, bits, h63]
      simp
      omega
    · simp only [ofBits, bits]
      simp
      omega

/--
A finite magnitude in units of `2 ^ -1074`. Below `2 ^ 52` the spacing is one unit; from there on
it doubles with every further `2 ^ 52` magnitudes.
-/
def units (magnitude : Nat) : Nat :=
  if magnitude < Nat.pow 2 52 then magnitude
  else (Nat.pow 2 52 + magnitude % Nat.pow 2 52) * Nat.pow 2 (magnitude / Nat.pow 2 52 - 1)

/-- Equality as numbers: no pattern that is not a number equals any, and both zeros are equal. -/
def same (x y : Binary64) : Bool :=
  !x.isNaN && !y.isNaN &&
    (x.magnitude = y.magnitude && (x.negative = y.negative || x.magnitude = 0))

/-- The bits as 16 hexadecimal digits; all patterns that are not a number are shown alike. -/
def pattern (x : Binary64) : String :=
  if x.isNaN then "nan" else String.ofList (Digits.padded 16 16 x.bits)

/-- The double whose bits are written in hexadecimal. -/
def ofPattern? (text : String) : Option Binary64 :=
  match Digits.ofHex? text.toList with
  | some n => if n < Nat.pow 2 64 then some (ofBits n) else none
  | none => none

end Binary64

end Lox
