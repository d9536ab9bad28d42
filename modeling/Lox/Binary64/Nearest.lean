import Lox.Binary64.Basic
import Lox.Decimal.Basic

/-!
# The double nearest to a decimal

A quotient of natural numbers is rounded to the nearest double, and of two that are equally near
to the one with the even magnitude. The magnitude is found by one division: the quotient is
scaled to units of `2 ^ -1074`, its length says how many binary places are dropped, and the
rounded significand is added to the start of its binade, so that a carry into the next binade,
or from the largest double to infinity, needs no case of its own.
-/

namespace Lox

/-- The whole number nearest to `n / d`, and of two equally near ones the even one. -/
def roundHalfEven (n d : Nat) : Nat :=
  let q := n / d
  let r := n % d
  if 2 * r < d then q else if d < 2 * r then q + 1 else q + q % 2

namespace Binary64

/-- The magnitude of the double nearest to `n / d`. -/
def nearest (n d : Nat) : Nat :=
  let scaled := n * Nat.pow 2 1074
  let dropped := (scaled / d).log2 - 52
  min (dropped * Nat.pow 2 52 + roundHalfEven scaled (d * Nat.pow 2 dropped)) infinity

theorem nearest_le (n d : Nat) : nearest n d ≤ infinity := Nat.min_le_right _ _

/--
The magnitude of the double nearest to a decimal. Two cases are settled without the powers of
ten, which the exponent could make too long to write down: `10 ^ 400` lies above every finite
double, and `2 ^ (l + 1) / 8 ^ k` with `l + 1100 < 3 * k` lies below half of the least one.
-/
def magnitudeOf (d : Decimal) : Nat :=
  if d.coefficient = 0 then 0
  else match d.exponent with
    | .ofNat k => if 400 < k then infinity else nearest (d.coefficient * Nat.pow 10 k) 1
    | .negSucc k =>
      if d.coefficient.log2 + 1100 < 3 * (k + 1) then 0
      else nearest d.coefficient (Nat.pow 10 (k + 1))

theorem magnitudeOf_le (d : Decimal) : magnitudeOf d ≤ infinity := by
  unfold magnitudeOf
  split
  · exact Nat.zero_le _
  · split
    · split
      · exact Nat.le_refl _
      · exact nearest_le _ _
    · split
      · exact Nat.zero_le _
      · exact nearest_le _ _

/-- The double nearest to a decimal with a sign; beyond the range it is an infinity. -/
def ofDecimal (negative : Bool) (d : Decimal) : Binary64 where
  negative
  magnitude := magnitudeOf d
  magnitude_lt := Nat.lt_of_le_of_lt (magnitudeOf_le _) infinity_lt

def ofNumeral (n : Numeral) : Binary64 := ofDecimal n.negative n.absolute

end Binary64

end Lox
