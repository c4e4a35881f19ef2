/-!
# Double precision numbers in exact terms

A finite number is a sign and `mantissa * 2 ^ exponent` with a natural mantissa below `2 ^ 53`.
-/

namespace ProtoVm.Binary64

inductive Magnitude
  | nan
  | infinite
  | finite (mantissa : Nat) (exponent : Int)
deriving DecidableEq, Repr

structure Parts where
  negative : Bool
  magnitude : Magnitude
deriving DecidableEq, Repr

/-- The leading bit of a normal mantissa, `2 ^ 52`. -/
def leadingBit : Nat := 0x10000000000000

/-- The least exponent, shared by the subnormal numbers and the least normal ones. -/
def minExponent : Int := -1074

def Parts.ofBits (bits : UInt64) : Parts :=
  let field : Nat := bits.toNat / leadingBit % 2048
  let fraction : Nat := bits.toNat % leadingBit
  { negative := 0x8000000000000000 ≤ bits.toNat
    magnitude :=
      if field = 2047 then if fraction = 0 then .infinite else .nan
      else if field = 0 then .finite fraction minExponent
      else .finite (leadingBit + fraction) ((field : Int) - 1 + minExponent) }

def Parts.of (x : Float) : Parts := .ofBits x.toBits

/-- Doubles the mantissa until it is normal or the exponent is the least. -/
def normalize : Nat → Nat → Nat → Nat × Nat
  | 0, mantissa, lift => (mantissa, lift)
  | fuel + 1, mantissa, lift =>
    if lift = 0 ∨ leadingBit ≤ mantissa then (mantissa, lift)
    else normalize fuel (2 * mantissa) (lift - 1)

/-- The number `mantissa * 2 ^ exponent`, for a mantissa below `2 ^ 53` and an exponent that is not too
small for it. -/
def ofMantissa (negative : Bool) (mantissa : Nat) (exponent : Int) : Float :=
  let (mantissa, lift) := normalize 52 mantissa (exponent - minExponent).toNat
  let field := if mantissa < leadingBit then 0 else lift + 1
  let sign := if negative then 0x8000000000000000 else 0
  .ofBits (.ofNat (sign + field * leadingBit + mantissa % leadingBit))

/-- What is left of `a` after taking away `b` a whole number of times, with the sign of `a`. The
result is exact. -/
def remainder (a b : Float) : Float :=
  let pa := Parts.of a
  match pa.magnitude, (Parts.of b).magnitude with
  | .finite m p, .finite n q =>
    if n = 0 then 0.0 / 0.0
    else
      let low := min p q
      ofMantissa pa.negative ((m <<< (p - low).toNat) % (n <<< (q - low).toNat)) low
  | .finite .., .infinite => a
  | _, _ => 0.0 / 0.0

/-- The integer a number equals, without its sign. -/
def Magnitude.toNat? : Magnitude → Option Nat
  | .finite mantissa exponent =>
    if 0 ≤ exponent then some (mantissa <<< exponent.toNat)
    else
      let unit := 1 <<< (-exponent).toNat
      if mantissa % unit = 0 then some (mantissa / unit) else none
  | _ => none

end ProtoVm.Binary64
