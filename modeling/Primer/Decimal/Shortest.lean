/-!
# Shortest decimals

A binary floating-point number stands for all reals that round to it, an interval around its value.
The *shortest decimal* of the number is the decimal `d * 10 ^ e` in this interval with the largest
exponent `e`, which is to say with the fewest digits. Of two such decimals it is the one nearer to
the value, and of two equally near ones the greater.

All comparisons are exact: they are made between natural numbers.
-/

namespace Primer.Decimal

/-- The positive number `mantissa * 2 ^ exponent`. The flag says that the next smaller number is
only half as far away as the next greater one. -/
structure Binary where
  mantissa : Nat
  exponent : Int
  narrowBelow : Bool
deriving DecidableEq, Repr

/-- The number `digits * 10 ^ exponent`. -/
structure Shortest where
  digits : Nat
  exponent : Int
deriving DecidableEq, Repr

namespace Binary

/-- The quarters of the last place of a number, `n` of them, as a numerator. -/
def quarters (b : Binary) (e : Int) (n : Nat) : Nat :=
  n * Nat.pow 2 (b.exponent - 2).toNat * Nat.pow 10 (-e).toNat

/-- The decimal step `10 ^ e` over the same denominator. -/
def unit (b : Binary) (e : Int) : Nat :=
  Nat.pow 10 e.toNat * Nat.pow 2 (2 - b.exponent).toNat

/-- Whether `d * 10 ^ e` rounds to the number. The interval ends half a step away on either side;
its ends belong to it if the mantissa is even. -/
def covers (b : Binary) (e : Int) (d : Nat) : Bool :=
  let low := b.quarters e (4 * b.mantissa - if b.narrowBelow then 1 else 2)
  let high := b.quarters e (4 * b.mantissa + 2)
  let point := d * b.unit e
  if b.mantissa % 2 = 0 then low ≤ point && point ≤ high else low < point && point < high

/-- The multiple of `10 ^ e` that rounds to the number, the nearest one if there are two next to its
value. -/
def multiple? (b : Binary) (e : Int) : Option Nat :=
  let value := b.quarters e (4 * b.mantissa)
  let below := value / b.unit e
  let above := below + 1
  match b.covers e below, b.covers e above with
  -- Both fit: the nearer one, and upwards from the middle.
  | true, true => some (if 2 * (value % b.unit e) < b.unit e then below else above)
  | true, false => some below
  | false, true => some above
  | false, false => none

/-- The first exponent, from `e` down, with a multiple that rounds to the number. -/
def shortestFrom (b : Binary) : Nat → Int → Option Shortest
  | 0, _ => none
  | steps + 1, e =>
    match b.multiple? e with
    | some d => some ⟨d, e⟩
    | none => b.shortestFrom steps (e - 1)

/-- An exponent above that of the shortest decimal. A number below `2 ^ k` is below `10 ^ (0.30103 *
k)`, and two steps more make up for rounding. -/
def exponentAbove (b : Binary) : Int :=
  (b.exponent + b.mantissa.log2 + 1) * 30103 / 100000 + 2

/-- The shortest decimal of a number of 64 bits. Such a number needs at most 17 digits, so it is
found within 24 steps. -/
def shortest? (b : Binary) : Option Shortest :=
  b.shortestFrom 24 b.exponentAbove

end Binary

/-! ## The layout of 64 bits -/

/-- What 64 bits stand for. -/
inductive Double where
  | notANumber
  | infinite (negative : Bool)
  | zero (negative : Bool)
  | finite (negative : Bool) (value : Binary)
deriving DecidableEq, Repr

namespace Double

/-- Reads a sign bit, eleven bits of exponent and 52 bits of mantissa. -/
def ofBits (bits : UInt64) : Double :=
  let negative := bits.toNat / Nat.pow 2 63 == 1
  let exponent : Nat := bits.toNat / Nat.pow 2 52 % Nat.pow 2 11
  let fraction : Nat := bits.toNat % Nat.pow 2 52
  if exponent = 2047 then
    if fraction = 0 then .infinite negative else .notANumber
  -- Below the smallest normal number the leading digit is not implied.
  else if exponent = 0 then
    if fraction = 0 then .zero negative else .finite negative ⟨fraction, -1074, false⟩
  else
    .finite negative
      ⟨Nat.pow 2 52 + fraction, (exponent : Int) - 1075, fraction = 0 && exponent ≠ 1⟩

end Double

end Primer.Decimal
