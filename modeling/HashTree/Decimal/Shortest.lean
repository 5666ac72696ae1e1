/-!
# The shortest decimal of a binary fraction

A floating-point number stands for all reals that round to it. Among the decimals in that set this
module picks one on the **coarsest** grid of a power of ten that has any, which is one with the
fewest digits, and of these the one **nearest** to the number itself.
-/

namespace HashTree

/-- The decimal fraction `significand * 10 ^ exponent`. -/
structure Decimal where
  significand : Nat
  exponent : Int
  deriving DecidableEq, Repr

namespace Decimal

/-! ## §1 The reals that round to a number -/

/-- An interval around a number, all in units of a power of two. -/
structure Interval where
  low : Nat
  centre : Nat
  high : Nat
  /-- The exponent of the unit. -/
  exponent : Int
  /-- Do the ends belong to the interval? -/
  closed : Bool
  deriving DecidableEq, Repr

/-- The interval of the number `significand * 2 ^ exponent`: half-way to its neighbours, of which
the lower is nearer where the number is the least of its binade. The ends round to the number
exactly when its significand is even. -/
def Interval.around (significand : Nat) (exponent : Int) (leastOfBinade : Bool) : Interval where
  low := 4 * significand - (if leastOfBinade then 1 else 2)
  centre := 4 * significand
  high := 4 * significand + 2
  exponent := exponent - 2
  closed := significand % 2 = 0

/-! ## §2 Grids -/

/-- The spacing of the grid of `10 ^ k`, and the unit of the interval, both multiplied by what
makes them whole. -/
def Interval.scales (r : Interval) (k : Int) : Nat × Nat :=
  (Nat.pow 10 k.toNat <<< (-r.exponent).toNat, Nat.pow 10 (-k).toNat <<< r.exponent.toNat)

/-- Does the point `c * 10 ^ k` lie in the interval? -/
def Interval.contains (r : Interval) (k : Int) (c : Nat) : Bool :=
  let (grid, unit) := r.scales k
  if r.closed then r.low * unit ≤ c * grid && c * grid ≤ r.high * unit
  else r.low * unit < c * grid && c * grid < r.high * unit

/-- The point of the grid of `10 ^ k` in the interval that is nearest to the centre, if there is
one. Only the two neighbours of the centre need a test; a tie goes to the even one. -/
def Interval.nearest? (r : Interval) (k : Int) : Option Nat :=
  let (grid, unit) := r.scales k
  let below := r.centre * unit / grid
  let above := below + 1
  match r.contains k below, r.contains k above with
  | false, false => none
  | true, false => some below
  | false, true => some above
  | true, true =>
    let down := r.centre * unit - below * grid
    let up := above * grid - r.centre * unit
    if down < up then some below
    else if up < down then some above
    else if below % 2 = 0 then some below else some above

/-- Tries the grids of `10 ^ k`, `10 ^ (k - 1)` and so on, at most `count` of them. -/
def Interval.coarsest (r : Interval) : (count : Nat) → (k : Int) → Decimal
  | 0, k => ⟨0, k⟩
  | count + 1, k =>
    match r.nearest? k with
    | some c => ⟨c, k⟩
    | none => r.coarsest count (k - 1)

/-! ## §3 Double precision -/

/-- The leading bit of a significand, which is not stored: `2 ^ 52`. -/
def hiddenBit : Nat := 0x10000000000000

/-- The shortest decimal of a finite positive double, given by its bits without the sign. Its value
is below `10 ^ 309`, and a grid of `10 ^ (-324)` is finer than the distance of any two doubles. -/
def ofBits (bits : Nat) : Decimal :=
  let biased := bits / hiddenBit
  let stored := bits % hiddenBit
  let interval :=
    if biased = 0 then Interval.around stored (-1074) false
    else Interval.around (hiddenBit + stored) (biased - 1075) (stored = 0 && biased ≠ 1)
  interval.coarsest 634 309

end Decimal

end HashTree
