import SableFront.Decimal.Shortest

/-!
# Decimals: the written forms of a double

A double is written in one of two ways, both from its shortest decimal. The plain form never has an
exponent, and a whole number is written without a fraction. The tree form keeps a `.0` on whole
numbers and has an exponent from `10 ^ 16` on, and below `10 ^ -4` unless the value is zero.
-/

namespace SableFront.Decimal

namespace Shortest

/-- The digits of a decimal, the most significant first. -/
def digitChars (d : Shortest) : List Char := Nat.toDigits 10 d.digits

/-- The power of ten that the first digit stands for. -/
def magnitude (d : Shortest) : Int := d.exponent + d.digitChars.length - 1

/-- The digits with a point `places` digits before the end. -/
def pointed (digits : List Char) (places : Nat) : List Char :=
  let padded := List.replicate (places + 1 - digits.length) '0' ++ digits
  padded.take (padded.length - places) ++ '.' :: padded.drop (padded.length - places)

/-- The form without an exponent; a whole number ends with `fraction`. -/
def positional (fraction : List Char) (d : Shortest) : List Char :=
  if d.exponent < 0 then pointed d.digitChars (-d.exponent).toNat
  else d.digitChars ++ List.replicate d.exponent.toNat '0' ++ fraction

/-- The form with an exponent; one digit stands before the point. -/
def scientific (d : Shortest) : List Char :=
  let mantissa :=
    match d.digitChars with
    | first :: second :: rest => first :: '.' :: second :: rest
    | digits => digits
  mantissa ++ 'e' :: (toString d.magnitude).toList

end Shortest

/-- The plain form of a double. -/
def plain (bits : UInt64) : List Char :=
  match Binary.ofBits? bits with
  | none => "inf".toList
  | some x => x.shortest.positional []

/-- The form of a double in a rendered tree. -/
def inTree (bits : UInt64) : List Char :=
  match Binary.ofBits? bits with
  | none => "inf".toList
  | some x =>
    let d := x.shortest
    if d.digits ≠ 0 ∧ (d.magnitude < -4 ∨ 16 ≤ d.magnitude) then d.scientific
    else d.positional ['.', '0']

end SableFront.Decimal
