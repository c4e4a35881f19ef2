import ProtoVm.Binary64

/-!
# The shortest decimal that reads back

The reals that round to `m * 2 ^ q` form an interval around it, which reaches half a unit up and, at a
power of two, only a quarter of a unit down. The shortest decimal in it lies next to the number on the
coarsest power of ten grid that meets the interval.
-/

namespace ProtoVm

/-- The number `digits * 10 ^ scale`. -/
structure Decimal where
  digits : Nat
  scale : Int
deriving DecidableEq, Repr

namespace Decimal

/-- A rational `num / den`, read as a count of grid points. -/
structure Ratio where
  num : Nat
  den : Nat

/-- Measures `n * 2 ^ exponent` in steps of `10 ^ scale`. -/
def Ratio.ofScaled (n : Nat) (exponent scale : Int) : Ratio :=
  { num := (n <<< exponent.toNat) * Nat.pow 10 (-scale).toNat
    den := (1 <<< (-exponent).toNat) * Nat.pow 10 scale.toNat }

/-- How many decimal digits `n` has, none for zero. -/
def digitCount (n : Nat) : Nat := if n = 0 then 0 else (Nat.toDigits 10 n).length

/-- A power of ten above `m * 2 ^ q` and at most ten times as large. -/
def topScale (m : Nat) (q : Int) : Int :=
  let r := Ratio.ofScaled m q 0
  if r.den ≤ r.num then digitCount (r.num / r.den)
  else 1 - digitCount ((r.den + r.num - 1) / r.num - 1)

/-- The interval of reals that round to `m * 2 ^ q`, in quarters of a unit; its ends belong to it
when the mantissa is even. -/
structure Interval where
  low : Nat
  high : Nat
  closed : Bool

def Interval.around (m : Nat) : Interval :=
  { low := if m = Binary64.leadingBit then 4 * m - 1 else 4 * m - 2
    high := 4 * m + 2
    closed := m % 2 = 0 }

/-- Whether `count` steps of `10 ^ scale` lie in the interval around `m * 2 ^ q`. -/
def Interval.contains (i : Interval) (q scale : Int) (count : Nat) : Bool :=
  let low := Ratio.ofScaled i.low (q - 2) scale
  let high := Ratio.ofScaled i.high (q - 2) scale
  if i.closed then low.num ≤ count * low.den && count * high.den ≤ high.num
  else low.num < count * low.den && count * high.den < high.num

/-- The point next to `m * 2 ^ q` on the grid of `10 ^ scale` that reads back as it. Of two such points
the nearer one is taken, and the upper one when both are as near. -/
def nearest? (m : Nat) (q scale : Int) : Option Nat :=
  let r := Ratio.ofScaled m q scale
  let below := r.num / r.den
  let interval := Interval.around m
  match interval.contains q scale below, interval.contains q scale (below + 1) with
  | true, true => some (if 2 * (r.num % r.den) < r.den then below else below + 1)
  | true, false => some below
  | false, true => some (below + 1)
  | false, false => none

/-- Tries finer and finer grids. The first grid is coarser than the number, and seventeen digits
suffice. -/
def search (m : Nat) (q : Int) : Nat → Int → Decimal
  | 0, scale => ⟨(Ratio.ofScaled m q scale).num / (Ratio.ofScaled m q scale).den, scale⟩
  | fuel + 1, scale =>
    match nearest? m q scale with
    | some digits => ⟨digits, scale⟩
    | none => search m q fuel (scale - 1)

/-- The shortest decimal that reads back as `m * 2 ^ q`, and of those the nearest to it. -/
def shortest (m : Nat) (q : Int) : Decimal :=
  if m = 0 then ⟨0, 0⟩ else search m q 18 (topScale m q)

end Decimal

end ProtoVm
