/-!
# Operation codes and operand kinds

Each table numbers its entries from zero in one byte, and `ofByte?` is the only reading of that byte.
-/

namespace ProtoVm

inductive Opcode
  | pushSelf | pushLiteral | pop | send | returnTop | addSlot
deriving DecidableEq, Repr

namespace Opcode

def byte : Opcode → UInt8
  | pushSelf => 0 | pushLiteral => 1 | pop => 2 | send => 3 | returnTop => 4 | addSlot => 5

def ofByte? : UInt8 → Option Opcode
  | 0 => some pushSelf | 1 => some pushLiteral | 2 => some pop
  | 3 => some send | 4 => some returnTop | 5 => some addSlot
  | _ => none

/-- Bytes of an instruction with this code, its operands included. -/
def length : Opcode → Nat
  | pushLiteral | send => 3
  | addSlot => 2
  | pushSelf | pop | returnTop => 1

def name : Opcode → String
  | pushSelf => "PUSH_SELF" | pushLiteral => "PUSH_LITERAL" | pop => "POP"
  | send => "SEND" | returnTop => "RETURN_TOP" | addSlot => "ADD_SLOT"

@[simp] theorem ofByte?_byte (op : Opcode) : ofByte? op.byte = some op := by cases op <;> rfl

theorem length_pos (op : Opcode) : 0 < op.length := by cases op <;> decide

end Opcode

/-- What a literal push pushes: an entry of the pool of this kind, or one of two fixed objects. -/
inductive LiteralKind
  | nil | int | float | text | object | assignment
deriving DecidableEq, Repr

namespace LiteralKind

def byte : LiteralKind → UInt8
  | nil => 0 | int => 1 | float => 2 | text => 3 | object => 4 | assignment => 5

def ofByte? : UInt8 → Option LiteralKind
  | 0 => some nil | 1 => some int | 2 => some float
  | 3 => some text | 4 => some object | 5 => some assignment
  | _ => none

def name : LiteralKind → String
  | nil => "Nil" | int => "Int" | float => "Float"
  | text => "Str" | object => "Obj" | assignment => "Assignment"

@[simp] theorem ofByte?_byte (kind : LiteralKind) : ofByte? kind.byte = some kind := by
  cases kind <;> rfl

end LiteralKind

inductive SendKind
  | unary | binary | keyword | unaryResend | keywordResend
deriving DecidableEq, Repr

namespace SendKind

def byte : SendKind → UInt8
  | unary => 0 | binary => 1 | keyword => 2 | unaryResend => 3 | keywordResend => 4

def ofByte? : UInt8 → Option SendKind
  | 0 => some unary | 1 => some binary | 2 => some keyword
  | 3 => some unaryResend | 4 => some keywordResend
  | _ => none

def name : SendKind → String
  | unary => "Unary" | binary => "Binary" | keyword => "Keyword"
  | unaryResend => "UnaryResend" | keywordResend => "KeywordResend"

/-- A resend also names the parent in which its search starts. -/
def isResend : SendKind → Bool
  | unaryResend | keywordResend => true
  | unary | binary | keyword => false

/-- How many arguments a send takes; only keyword sends read their count operand. -/
def argCount (count : UInt8) : SendKind → Nat
  | unary | unaryResend => 0
  | binary => 1
  | keyword | keywordResend => count.toNat

@[simp] theorem ofByte?_byte (kind : SendKind) : ofByte? kind.byte = some kind := by
  cases kind <;> rfl

end SendKind

inductive SlotKind
  | normal | parent
deriving DecidableEq, Repr

namespace SlotKind

def byte : SlotKind → UInt8
  | normal => 0 | parent => 1

def ofByte? : UInt8 → Option SlotKind
  | 0 => some normal | 1 => some parent
  | _ => none

def name : SlotKind → String
  | normal => "Normal" | parent => "Parent"

@[simp] theorem ofByte?_byte (kind : SlotKind) : ofByte? kind.byte = some kind := by
  cases kind <;> rfl

end SlotKind

end ProtoVm
