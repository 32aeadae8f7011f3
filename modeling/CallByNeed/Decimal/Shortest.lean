/-!
Shortest decimals. A binary number `m * 2 ^ q` is read back from every decimal in an interval
around it. The shortest decimal is looked for on the grids of one, two, three and more
significant digits in turn: on each grid only the two neighbours of the number can lie in the
interval, so the first grid where one of them does has the fewest digits.
-/
namespace CallByNeed.Decimal

/-- A positive binary number and half its distances to the neighbouring ones, as quarters of
`2 ^ q`: the number is `4 * m`, its lower end `4 * m - below` and its upper end `4 * m + 2`. -/
structure Binary where
  m : Nat
  q : Int
  below : Nat
deriving DecidableEq

/-- A decimal `digits * 10 ^ exponent`. -/
structure Scaled where
  digits : Nat
  exponent : Int
deriving DecidableEq

namespace Binary

/-- The ends belong to the interval when the mantissa is even, as ties are read to even. -/
def inclusive (b : Binary) : Bool := b.m % 2 == 0

/-- Factors `(x, y)` so that `quarters * 2 ^ (q - 2)` and `d * 10 ^ g` compare as `quarters * x`
and `d * y`. -/
def factors (b : Binary) (g : Int) : Nat × Nat :=
  (Nat.pow 2 (b.q - 2).toNat * Nat.pow 10 (-g).toNat,
    Nat.pow 2 (2 - b.q).toNat * Nat.pow 10 g.toNat)

/-- Whether `d * 10 ^ g` is read back as the number. -/
def reads (b : Binary) (d : Nat) (g : Int) : Bool :=
  let (x, y) := b.factors g
  let low := (4 * b.m - b.below) * x
  let high := (4 * b.m + 2) * x
  if b.inclusive then low ≤ d * y && d * y ≤ high else low < d * y && d * y < high

/-- The largest `d` with `d * 10 ^ g` at most the number. -/
def floorOn (b : Binary) (g : Int) : Nat :=
  let (x, y) := b.factors g
  4 * b.m * x / y

/-- Whether the upper of two grid neighbours is at least as near as the lower one. -/
def upperNearer (b : Binary) (d : Nat) (g : Int) : Bool :=
  let (x, y) := b.factors g
  (2 * d + 1) * y ≤ 2 * (4 * b.m * x)

/-- The neighbour of the number on the grid of `10 ^ g` that reads back; the nearer one if both
do, and the upper one when they are equally near. -/
def onGrid? (b : Binary) (g : Int) : Option Scaled :=
  let d := b.floorOn g
  match b.reads d g, b.reads (d + 1) g with
  | true, true => some ⟨if b.upperNearer d g then d + 1 else d, g⟩
  | true, false => some ⟨d, g⟩
  | false, true => some ⟨d + 1, g⟩
  | false, false => none

/-- The least `k` with the number below `10 ^ k`, for numbers of at least `10 ^ -350`. -/
def magnitude (b : Binary) : Int := (Nat.toDigits 10 (b.floorOn (-350))).length - 350

/-- The first grid of at most `left` further digits on which the number reads back, down from the
grid of `10 ^ g`; with no digit left, the number's lower neighbour. -/
def search (b : Binary) : Nat → Int → Scaled
  | 0, g => ⟨b.floorOn g, g⟩
  | left + 1, g => (b.onGrid? g).getD (b.search left (g - 1))

/-- The shortest decimal read back as the number. Seventeen digits always suffice for a double. -/
def shortest (b : Binary) : Scaled := b.search 17 (b.magnitude - 1)

end Binary
end CallByNeed.Decimal
