import ProtoVm.Fault

/-!
# Instructions

An instruction is its operation code followed by one byte for each operand.
-/

namespace ProtoVm

inductive Instruction
  | pushSelf
  | pushLiteral (kind : LiteralKind) (index : UInt8)
  | pop
  | send (kind : SendKind) (count : UInt8)
  | returnTop
  | addSlot (kind : SlotKind)
deriving DecidableEq, Repr

namespace Instruction

def opcode : Instruction → Opcode
  | pushSelf => .pushSelf
  | pushLiteral .. => .pushLiteral
  | pop => .pop
  | send .. => .send
  | returnTop => .returnTop
  | addSlot _ => .addSlot

def length (i : Instruction) : Nat := i.opcode.length

def operands : Instruction → List UInt8
  | pushLiteral kind index => [kind.byte, index]
  | send kind count => [kind.byte, count]
  | addSlot kind => [kind.byte]
  | pushSelf | pop | returnTop => []

def encode (i : Instruction) : List UInt8 := i.opcode.byte :: i.operands

/-- The byte at `offset`; code that ends before it is cut off inside an instruction. -/
def fetch (bytes : Array UInt8) (offset : Nat) : Except Fault UInt8 :=
  match bytes[offset]? with
  | some byte => .ok byte
  | none => .error (.truncatedCode offset)

def fetchKind {α : Type} (ofByte? : UInt8 → Option α) (bytes : Array UInt8) (offset : Nat) :
    Except Fault α := do
  let byte ← fetch bytes offset
  match ofByte? byte with
  | some kind => .ok kind
  | none => .error (.invalidOperand offset byte)

/-- The instruction at `offset`. Of several faults the one at the first byte is reported. -/
def decode (bytes : Array UInt8) (offset : Nat) : Except Fault Instruction := do
  let byte ← fetch bytes offset
  match Opcode.ofByte? byte with
  | none => .error (.invalidOpcode byte)
  | some .pushSelf => return pushSelf
  | some .pop => return pop
  | some .returnTop => return returnTop
  | some .pushLiteral =>
    let kind ← fetchKind LiteralKind.ofByte? bytes (offset + 1)
    return pushLiteral kind (← fetch bytes (offset + 2))
  | some .send =>
    let kind ← fetchKind SendKind.ofByte? bytes (offset + 1)
    return send kind (← fetch bytes (offset + 2))
  | some .addSlot => return addSlot (← fetchKind SlotKind.ofByte? bytes (offset + 1))

def text : Instruction → String
  | pushLiteral kind index => s!"{Opcode.pushLiteral.name} {kind.name} {index.toNat}"
  | send kind count => s!"{Opcode.send.name} {kind.name} {count.toNat}"
  | addSlot kind => s!"{Opcode.addSlot.name} {kind.name}"
  | i => i.opcode.name

theorem length_encode (i : Instruction) : i.encode.length = i.length := by cases i <;> rfl

theorem length_pos (i : Instruction) : 0 < i.length := i.opcode.length_pos

end Instruction

end ProtoVm
