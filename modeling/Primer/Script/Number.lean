import Primer.Decimal.Shortest
import Primer.Text.Decimal

/-!
# Numbers in scripts

A float is written with the fewest digits that read back as the same number. The digits are written
out around a point, with at least one digit on either side, if the point falls at most three places
in front of the first digit and at most sixteen behind it. Otherwise one digit stands in front of
the point and an exponent follows; then a point without digits behind it is left out.
-/

namespace Primer.Script

/-- How far in front of the first digit the point may fall in a number without exponent. -/
def leadingZeros : Int := 3

/-- How far behind the first digit the point may fall in a number without exponent. -/
def wholeDigits : Int := 16

/-- Digits with the point after the first `point` of them, zeros filled in where digits are missing.
-/
def positional (digits : List Char) (point : Int) : List Char :=
  if point ≤ 0 then ['0', '.'] ++ List.replicate (-point).toNat '0' ++ digits
  else
    let whole := point.toNat
    if digits.length ≤ whole then
      digits ++ List.replicate (whole - digits.length) '0' ++ ['.', '0']
    else digits.take whole ++ '.' :: digits.drop whole

/-- Digits with the point after the first one and an exponent behind. -/
def scientific (digits : List Char) (point : Int) : List Char :=
  let fraction := digits.drop 1
  digits.take 1 ++ (if fraction.isEmpty then [] else '.' :: fraction) ++ 'e' ::
    (Text.ofInt (point - 1)).toList

/-- A positive decimal. -/
def decimalText (d : Decimal.Shortest) : List Char :=
  let digits := Nat.toDigits 10 d.digits
  let point := (digits.length : Int) + d.exponent
  if -leadingZeros ≤ point ∧ point ≤ wholeDigits then positional digits point
  else scientific digits point

/-- A text with a minus sign in front if the number is negative. -/
def signed (negative : Bool) (text : String) : String :=
  if negative then "-" ++ text else text

/-- The float with given bits. -/
def floatText (bits : UInt64) : String :=
  match Decimal.Double.ofBits bits with
  | .notANumber => "NaN"
  | .infinite negative => signed negative "inf"
  | .zero negative => signed negative "0.0"
  | .finite negative value =>
    signed negative (String.ofList ((value.shortest?.map decimalText).getD []))

end Primer.Script
