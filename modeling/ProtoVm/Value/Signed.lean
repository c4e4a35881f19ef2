import ProtoVm.Native.Run
import ProtoVm.Value.Word

/-!
# Arithmetic on words

Integers in values are computed with as signed words of 64 bits, which have one bit more than a value has room for. So a
result passes two limits: the operation has to stay within the words, and what it gives has to fit beside the tag.
-/

namespace ProtoVm

namespace ArithmeticOp

/-- The result in two's complement, whether or not it is exact. -/
def wrapping : ArithmeticOp → Int64 → Int64 → Int64
  | add => (· + ·) | sub => (· - ·) | mul => (· * ·) | div => (· / ·) | rem => (· % ·)

/-- Whether the exact result has left the words. A remainder leaves them with its quotient. -/
def overflows (a b : Int64) : ArithmeticOp → Bool
  | rem => (div.wrapping a b).toInt ≠ div.exact a.toInt b.toInt
  | op => (op.wrapping a b).toInt ≠ op.exact a.toInt b.toInt

/-- The result, if there is one and it stays within the words. -/
def checked (op : ArithmeticOp) (a b : Int64) : Option Int64 :=
  if op.divides && b == 0 then none
  else if op.overflows a b then none
  else some (op.wrapping a b)

end ArithmeticOp

namespace Fixnum

/-- Shifted past the tag, which loses the top bit; an integer that needs this bit does not fit. -/
def tagged? (n : Int64) : Option UInt64 :=
  if minFixnum ≤ n.toInt ∧ n.toInt ≤ maxFixnum then some (n.toUInt64 <<< 1) else none

/-- Shifted back, which restores the sign. -/
def untagged? (w : UInt64) : Option Int64 := if w &&& 1 = 0 then some (w.toInt64 >>> 1) else none

end Fixnum

/-- The word of the result, from the integers in the operands. -/
def ArithmeticOp.onWords (op : ArithmeticOp) (a b : Int64) : Except ArithmeticFailure UInt64 :=
  if op.divides && b == 0 then .error .divisionByZero
  else match (op.checked a b).bind Fixnum.tagged? with
    | some w => .ok w
    | none => .error .overflow

end ProtoVm
