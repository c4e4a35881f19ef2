/-!
# Natives

Operations that the machine itself provides, with the selectors under which objects offer them.
-/

namespace ProtoVm

inductive ArithmeticOp
  | add | sub | mul | div | rem
deriving DecidableEq, Repr

inductive Comparison
  | lt | gt | le | ge | eq
deriving DecidableEq, Repr

inductive Native
  | fixnumArithmetic (op : ArithmeticOp)
  | fixnumComparison (relation : Comparison)
  | floatArithmetic (op : ArithmeticOp)
  | floatComparison (relation : Comparison)
  | concatenate
  | sameText
  | textSize
  | printString
  | identical
  | halt
  | raise
  | setHandler
  | restore
deriving DecidableEq, Repr

def ArithmeticOp.selector : ArithmeticOp → String
  | add => "+" | sub => "-" | mul => "*" | div => "/" | rem => "%"

def Comparison.selector : Comparison → String
  | lt => "<" | gt => ">" | le => "<=" | ge => ">=" | eq => "=="

namespace Native

def selector : Native → String
  | fixnumArithmetic op | floatArithmetic op => op.selector
  | fixnumComparison relation | floatComparison relation => relation.selector
  | concatenate => "+"
  | sameText => "=="
  | textSize => "size"
  | printString => "printString"
  | identical => "is:"
  | halt => "halt:"
  | raise => "error:"
  | setHandler => "setErrorHandler:"
  | restore => "restoreProcess:With:"

def arity : Native → Nat
  | textSize | printString => 0
  | restore => 2
  | _ => 1

end Native

/-- The families in which natives are installed. -/
inductive NativeGroup
  | fixnum | float | string | singleton | control
deriving DecidableEq, Repr

def NativeGroup.natives : NativeGroup → List Native
  | fixnum =>
    [.fixnumArithmetic .add, .fixnumArithmetic .sub, .fixnumArithmetic .mul, .fixnumArithmetic .div,
      .fixnumArithmetic .rem, .fixnumComparison .lt, .fixnumComparison .gt, .fixnumComparison .le,
      .fixnumComparison .ge, .fixnumComparison .eq, .printString, .identical]
  | float =>
    [.floatArithmetic .add, .floatArithmetic .sub, .floatArithmetic .mul, .floatArithmetic .div,
      .floatComparison .lt, .floatComparison .gt, .floatComparison .eq, .printString, .identical]
  | string => [.concatenate, .sameText, .textSize, .printString, .identical]
  | singleton => [.printString, .identical]
  | control => [.halt, .raise, .setHandler, .restore]

end ProtoVm
