/-!
# Decimal text and padding

Whole numbers are written in base ten without leading zeros, negative ones after a minus sign.
-/

namespace Primer.Text

/-- A natural number in base ten. -/
def ofNat (n : Nat) : String :=
  String.ofList (Nat.toDigits 10 n)

/-- An integer in base ten, with a minus sign in front of a negative one. -/
def ofInt : Int → String
  | .ofNat n => ofNat n
  | .negSucc n => "-" ++ ofNat (n + 1)

/-- How many digits a natural number has in base ten. -/
def digitCount (n : Nat) : Nat :=
  (Nat.toDigits 10 n).length

/-- The same character `n` times. -/
def fill (c : Char) (n : Nat) : String :=
  String.ofList (List.replicate n c)

/-- Blanks, `n` of them. -/
def blanks (n : Nat) : String :=
  fill ' ' n

/-- A natural number at the right end of a field of at least `width` characters. -/
def ofNatRight (width n : Nat) : String :=
  blanks (width - digitCount n) ++ ofNat n

/-- Texts with a comma and a blank between neighbours. -/
def commaSeparated (parts : List String) : String :=
  String.intercalate ", " parts

end Primer.Text
