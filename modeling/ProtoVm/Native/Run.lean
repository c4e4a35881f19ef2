import ProtoVm.Display

/-!
# What natives do

A native computes on the heap and tells the machine how to go on.
-/

namespace ProtoVm

/-- How a send goes on after its native. -/
inductive Reply
  /-- With the value as its result. -/
  | answer (value : Value)
  /-- The process ends with the value. -/
  | halt (value : Value)
  /-- The value is handed to the error handler. -/
  | raise (value : Value)
  /-- The block becomes the error handler of the sender. -/
  | handler (block : Value)
  /-- The stack behind the token goes on with the value. -/
  | restore (token value : Value)
deriving DecidableEq, Repr

def ArithmeticOp.exact : ArithmeticOp → Int → Int → Int
  | add => (· + ·) | sub => (· - ·) | mul => (· * ·) | div => Int.tdiv | rem => Int.tmod

def ArithmeticOp.inexact : ArithmeticOp → Float → Float → Float
  | add => (· + ·) | sub => (· - ·) | mul => (· * ·) | div => (· / ·) | rem => Binary64.remainder

def ArithmeticOp.divides : ArithmeticOp → Bool
  | div | rem => true
  | add | sub | mul => false

def Comparison.exact (a b : Int) : Comparison → Bool
  | lt => a < b | gt => b < a | le => a ≤ b | ge => b ≤ a | eq => a == b

def Comparison.inexact (a b : Float) : Comparison → Bool
  | lt => a < b | gt => b < a | le => a ≤ b | ge => b ≤ a | eq => a == b

inductive Number
  | fixnum (n : Int)
  | float (x : Float)

namespace Native

variable (roots : Roots)

def mismatch {α : Type} (expected : Expected) (value : Value) : HeapM α := do
  throw (.typeMismatch expected ((← get).kindOf roots value))

def firstArg (args : List Value) : HeapM Value :=
  match args with
  | value :: _ => return value
  | [] => throw .stackUnderflow

def toFixnum (value : Value) : HeapM Int :=
  match value.toInt? with
  | some n => return n
  | none => mismatch roots .fixnum value

def toFloat (value : Value) : HeapM Float := do
  match (← get).float? value with
  | some x => return x
  | none => mismatch roots .float value

def toText (value : Value) : HeapM String := do
  match (← get).text? value with
  | some s => return s
  | none => mismatch roots .string value

def toNumber (value : Value) : HeapM Number := do
  match value.toInt?, (← get).float? value with
  | some n, _ => return .fixnum n
  | none, some x => return .float x
  | none, none => mismatch roots .number value

/-- A float, or an integer rounded to the nearest one. -/
def widen (value : Value) : HeapM Float :=
  match value.toInt? with
  | some n => return .ofInt n
  | none => toFloat roots value

/-- The exact result, if it fits in a value. -/
def fixnumResult (op : ArithmeticOp) (a b : Int) : HeapM Value :=
  match Value.ofInt? (op.exact a b) with
  | some value => return value
  | none => throw (.nativeFailed op.selector .overflow)

/-- Division by the integer zero fails before the receiver is looked at. -/
def checkDivisor (op : ArithmeticOp) (args : List Value) : HeapM Unit := do
  if op.divides then
    if (← firstArg args).toInt? = some 0 then throw (.nativeFailed op.selector .divisionByZero)

def run (native : Native) (receiver : Value) (args : List Value) : HeapM Reply :=
  match native with
  | fixnumArithmetic op => do
    checkDivisor op args
    let a ← toFixnum roots receiver
    match ← toNumber roots (← firstArg args) with
    | .fixnum b => return .answer (← fixnumResult op a b)
    | .float b => return .answer (← roots.newFloat (op.inexact (.ofInt a) b))
  | fixnumComparison relation => do
    let a ← toFixnum roots receiver
    match ← toNumber roots (← firstArg args) with
    | .fixnum b => return .answer (roots.boolean (relation.exact a b))
    | .float b => return .answer (roots.boolean (relation.inexact (.ofInt a) b))
  | floatArithmetic op => do
    let a ← toFloat roots receiver
    let b ← widen roots (← firstArg args)
    return .answer (← roots.newFloat (op.inexact a b))
  | floatComparison relation => do
    let a ← toFloat roots receiver
    let b ← widen roots (← firstArg args)
    return .answer (roots.boolean (relation.inexact a b))
  | concatenate => do
    let a ← toText roots receiver
    let b ← toText roots (← firstArg args)
    return .answer (← roots.newString (a ++ b))
  | sameText => do
    let a ← toText roots receiver
    let b ← firstArg args
    return .answer (roots.boolean ((← get).text? b == some a))
  | textSize => do
    let s ← toText roots receiver
    match Value.ofInt? s.length with
    | some size => return .answer size
    | none => throw (.integerOverflow s.length)
  | printString => do return .answer (← roots.newString ((← get).display roots receiver))
  | identical => do return .answer (roots.boolean (receiver == (← firstArg args)))
  | halt => return .halt (← firstArg args)
  | raise => return .raise (← firstArg args)
  | setHandler => do
    let handler ← firstArg args
    if ((← get).object? handler).any (·.shape.isBlock) then return .handler handler
    else mismatch roots .block handler
  | restore =>
    match args with
    | [token, value] => return .restore token value
    | _ => throw .stackUnderflow

end Native

end ProtoVm
