import ProtoVm.Decimal.Shortest

/-!
# Numbers in positional form

Floats are written with all their digits around a decimal point and never with an exponent.
-/

namespace ProtoVm.Decimal

def zeros (n : Nat) : String := String.ofList (List.replicate n '0')

def positional (d : Decimal) : String :=
  let digits := toString d.digits
  if 0 ≤ d.scale then digits ++ zeros d.scale.toNat
  else
    let places := (-d.scale).toNat
    let padded := (zeros (places + 1 - digits.length) ++ digits).toList
    String.ofList (padded.take (padded.length - places)) ++ "."
      ++ String.ofList (padded.drop (padded.length - places))

def sign (negative : Bool) : String := if negative then "-" else ""

/-- The shortest text that reads back; a zero keeps its sign, and what is no number has none. -/
def text (x : Float) : String :=
  let parts := Binary64.Parts.of x
  match parts.magnitude with
  | .nan => "NaN"
  | .infinite => sign parts.negative ++ "inf"
  | .finite m q => sign parts.negative ++ (shortest m q).positional

/-- As `text`, but an integral number is written out in full with one decimal place. -/
def pointedText (x : Float) : String :=
  let parts := Binary64.Parts.of x
  match parts.magnitude.toNat? with
  | some n => sign parts.negative ++ toString n ++ ".0"
  | none => text x

end ProtoVm.Decimal
