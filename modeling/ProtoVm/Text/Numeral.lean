/-! # Numerals of fixed width -/

namespace ProtoVm.Text

def padLeft (width : Nat) (fill : Char) (s : String) : String :=
  String.ofList (List.replicate (width - s.length) fill) ++ s

def hex (n : Nat) : String := String.ofList (Nat.toDigits 16 n)

/-- A byte as `0x` and two hexadecimal digits. -/
def hexByte (b : UInt8) : String := "0x" ++ padLeft 2 '0' (hex b.toNat)

/-- A position in code, with at least four digits. -/
def offset (n : Nat) : String := padLeft 4 '0' (toString n)

end ProtoVm.Text
