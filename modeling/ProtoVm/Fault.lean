import ProtoVm.Bytecode
import ProtoVm.Text.Numeral

/-!
# Faults

Why an operation of the machine failed. A search for a slot that fails can be answered by an
installed handler; every other fault ends its process.
-/

namespace ProtoVm

/-- The kinds of value that programs can tell apart. -/
inductive ValueKind
  | fixnum | nil | boolean | string | float | token | activation
  | block | method | native | assignment | object | unknown
deriving DecidableEq, Repr

def ValueKind.name : ValueKind → String
  | fixnum => "fixnum" | nil => "nil" | boolean => "boolean" | string => "string"
  | float => "float" | token => "error token" | activation => "activation" | block => "block"
  | method => "method" | native => "primitive" | assignment => "assignment"
  | object => "object" | unknown => "unknown"

/-- What an operation asks of its operand; a number is a fixnum or a float. -/
inductive Expected
  | fixnum | float | number | string | block | object
deriving DecidableEq, Repr

def Expected.name : Expected → String
  | fixnum => "fixnum" | float => "float" | number => "number"
  | string => "string" | block => "block" | object => "object"

inductive ArithmeticFailure
  | overflow | divisionByZero
deriving DecidableEq, Repr

def ArithmeticFailure.reason : ArithmeticFailure → String
  | overflow => "fixnum overflow"
  | divisionByZero => "division by zero"

inductive Fault
  | missingSlot (name : String)
  | ambiguousSlot (name : String)
  | missingParent (name : String)
  | arityMismatch (selector : String) (expected got : Nat)
  | nativeFailed (selector : String) (failure : ArithmeticFailure)
  | typeMismatch (expected : Expected) (got : ValueKind)
  | stackUnderflow
  | stackOverflow (limit : Nat)
  | invalidOpcode (byte : UInt8)
  | invalidOperand (offset : Nat) (byte : UInt8)
  | truncatedCode (offset : Nat)
  | literalOutOfRange (index : Nat)
  | literalMismatch (expected : LiteralKind)
  | poolOverflow
  | integerOverflow (n : Int)
  | invalidToken
  | heapExhausted (limit : Nat)
deriving DecidableEq, Repr

namespace Fault

def message : Fault → String
  | missingSlot name => s!"missing slot `{name}`"
  | ambiguousSlot name => s!"too many parent slots define `{name}`, use resend"
  | missingParent name => s!"missing parent slot `{name}` for resend"
  | arityMismatch selector expected got => s!"`{selector}` takes {expected} parameters, got {got}"
  | nativeFailed selector failure => s!"primitive `{selector}` failed: {failure.reason}"
  | typeMismatch expected got => s!"expected {expected.name}, got {got.name}"
  | stackUnderflow => "evaluation stack underflow"
  | stackOverflow limit => s!"frame stack exceeded {limit} activations"
  | invalidOpcode byte => s!"invalid opcode {Text.hexByte byte}"
  | invalidOperand offset byte => s!"invalid operand {Text.hexByte byte} at offset {offset}"
  | truncatedCode offset => s!"bytecode ends inside an instruction at offset {offset}"
  | literalOutOfRange index => s!"literal index {index} out of range"
  | literalMismatch expected => s!"literal is not of type {expected.name}"
  | poolOverflow => "literal pool is full"
  | integerOverflow n => s!"integer {n} does not fit in a fixnum"
  | invalidToken => "invalid or already used error token"
  | heapExhausted limit => s!"heap is full, {limit} objects are live"

/-- A handler may answer in place of a send that found no slot, two slots or no parent. -/
def isRecoverable : Fault → Bool
  | missingSlot _ | ambiguousSlot _ | missingParent _ => true
  | _ => false

end Fault

end ProtoVm
