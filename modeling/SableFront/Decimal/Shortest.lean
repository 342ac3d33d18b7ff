/-!
# Decimals: the shortest decimal that reads back

A literal with a fraction is kept as the bits of a double. It is shown by the shortest decimal that
reads back as the same double: of all multiples of a power of ten that round to it, one on the
coarsest grid. Of two such multiples the nearer is taken, and the upper one if they are equally
near.

All comparisons are made in whole numbers: a value is `mantissa * 2 ^ scale`, and four times the
mantissa leaves room for the ends of its rounding interval.
-/

namespace SableFront.Decimal

/-- The magnitude `mantissa * 2 ^ scale` of a finite double. -/
structure Binary where
  mantissa : Nat
  scale : Int
  /-- The neighbour below is only half as far away as the neighbour above. -/
  narrowBelow : Bool
  deriving DecidableEq

/-- The magnitude that the bits of a double stand for, or nothing for one without a finite
value. -/
def Binary.ofBits? (bits : UInt64) : Option Binary :=
  let exponent := ((bits >>> 52) &&& 0x7ff).toNat
  let fraction := (bits &&& 0xfffffffffffff).toNat
  if exponent = 0x7ff then none
  else if exponent = 0 then some ⟨fraction, -1074, false⟩
  else some ⟨Nat.pow 2 52 + fraction, (exponent : Int) - 1075, fraction = 0 && 1 < exponent⟩

/-- The decimal `digits * 10 ^ exponent`. -/
structure Shortest where
  digits : Nat
  exponent : Int
  deriving DecidableEq

/-- The factors by which four times the mantissa of a magnitude and a multiple of `10 ^ exponent`
are brought to one unit. -/
def units (x : Binary) (exponent : Int) : Nat × Nat :=
  (Nat.pow 2 (x.scale - 2).toNat * Nat.pow 10 (-exponent).toNat,
   Nat.pow 2 (2 - x.scale).toNat * Nat.pow 10 exponent.toNat)

/-- A multiple of `10 ^ exponent` rounds to the magnitude. The ends of the interval count if the
mantissa is even. -/
def Binary.readsBack (x : Binary) (exponent : Int) (multiple : Nat) : Bool :=
  let (ours, theirs) := units x exponent
  let lower := (4 * x.mantissa - if x.narrowBelow then 1 else 2) * ours
  let upper := (4 * x.mantissa + 2) * ours
  let value := multiple * theirs
  if x.mantissa % 2 = 0 then lower ≤ value && value ≤ upper else lower < value && value < upper

/-- The best multiple of `10 ^ exponent` that reads back: of the two around the value the nearer
one, the upper one if both are equally near. -/
def Binary.onGrid? (x : Binary) (exponent : Int) : Option Shortest :=
  let (ours, theirs) := units x exponent
  let below := 4 * x.mantissa * ours / theirs
  let nearer := if 2 * (4 * x.mantissa * ours) < (2 * below + 1) * theirs then below else below + 1
  let farther := 2 * below + 1 - nearer
  if x.readsBack exponent nearer then some ⟨nearer, exponent⟩
  else if x.readsBack exponent farther then some ⟨farther, exponent⟩
  else none

/-- The least exponent of ten at which a grid can be needed: the finest one holds the exact value of
every double. -/
def finestExponent : Int := -1074

/-- The first grid with a hit, from `10 ^ exponent` on to finer ones. -/
def Binary.search (x : Binary) : Nat → Int → Shortest
  | 0, exponent => ⟨x.mantissa, exponent⟩
  | steps + 1, exponent => (x.onGrid? exponent).getD (x.search steps (exponent - 1))

/-- The shortest decimal that reads back as a magnitude. The search starts at the first power of ten
above the value's integer part. -/
def Binary.shortest (x : Binary) : Shortest :=
  if x.mantissa = 0 then ⟨0, 0⟩
  else
    let whole := x.mantissa * Nat.pow 2 x.scale.toNat / Nat.pow 2 (-x.scale).toNat
    let top := (Nat.toDigits 10 whole).length
    x.search (((top : Int) - finestExponent).toNat + 1) top

end SableFront.Decimal
