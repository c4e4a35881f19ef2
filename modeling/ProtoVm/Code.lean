import ProtoVm.Bytecode.Instruction
import ProtoVm.Value

/-!
# Code units

A unit is a sequence of instructions and the pool of literals they push. Methods and blocks are object
literals with a unit of their own.
-/

namespace ProtoVm

inductive ObjectKind
  | plain | method | block
deriving DecidableEq, Repr

def ObjectKind.name : ObjectKind → String
  | plain => "Plain" | method => "Method" | block => "Block"

mutual

inductive Literal
  | int (n : Int)
  | float (x : Float)
  | text (s : String)
  | object (kind : ObjectKind) (params : List String) (code : Option Code)

structure Code where
  bytes : Array UInt8 := #[]
  literals : List Literal := []
  /-- A finalized unit takes no further instructions. -/
  finalized : Bool := false

end

instance : Inhabited Literal := ⟨.int 0⟩

instance : Inhabited Code := ⟨{}⟩

def Literal.kind : Literal → LiteralKind
  | int _ => .int
  | float _ => .float
  | text _ => .text
  | object .. => .object

def Literal.isText (s : String) : Literal → Bool
  | text t => t == s
  | _ => false

namespace Code

def emit (code : Code) (i : Instruction) : Code := { code with bytes := code.bytes ++ i.encode }

def literal (code : Code) (index : Nat) : Except Fault Literal :=
  match code.literals[index]? with
  | some l => .ok l
  | none => .error (.literalOutOfRange index)

theorem literal_eq_ok_iff {code : Code} {index : Nat} {l : Literal} :
    code.literal index = .ok l ↔ code.literals[index]? = some l := by
  unfold literal
  cases code.literals[index]? <;> simp

theorem literal_eq_error_iff {code : Code} {index : Nat} {fault : Fault} :
    code.literal index = .error fault ↔ code.literals[index]? = none ∧ fault = .literalOutOfRange index := by
  unfold literal
  cases code.literals[index]? <;> simp [eq_comm]

/-- Where the pool already holds `l`; only texts are shared. -/
def pooled? (code : Code) : Literal → Option Nat
  | .text s => code.literals.findIdx? (·.isText s)
  | _ => none

/-- One operand byte names a literal. -/
def poolLimit : Nat := 256

/-- The index of `l` in the pool, which grows at its end unless it holds the same text. -/
def addLiteral (code : Code) (l : Literal) : Except Fault (UInt8 × Code) :=
  match code.pooled? l with
  | some index => .ok (index.toUInt8, code)
  | none =>
    if code.literals.length < poolLimit then
      .ok (code.literals.length.toUInt8, { code with literals := code.literals ++ [l] })
    else .error .poolOverflow

def pushLiteral (code : Code) (l : Literal) : Except Fault Code := do
  let (index, code) ← code.addLiteral l
  return code.emit (.pushLiteral l.kind index)

/-- Enough closing returns that no instruction cut short by the end of a unit reads past it. -/
def padding : List UInt8 := List.replicate 4 Opcode.returnTop.byte

end Code

mutual

def Literal.finalize : Literal → Literal
  | .object kind params (some code) => .object kind params (some code.finalize)
  | l => l
termination_by structural l => l

/-- Closes a unit and the units of its literals. A unit closed before is left as it is. -/
def Code.finalize : Code → Code
  | ⟨bytes, literals, false⟩ => ⟨bytes ++ Code.padding, finalizeLiterals literals, true⟩
  | code => code
termination_by structural code => code

def finalizeLiterals : List Literal → List Literal
  | [] => []
  | l :: rest => l.finalize :: finalizeLiterals rest
termination_by structural literals => literals

end

theorem finalizeLiterals_eq_map (literals : List Literal) :
    finalizeLiterals literals = literals.map Literal.finalize := by
  induction literals with
  | nil => rfl
  | cons l rest ih => simp [finalizeLiterals, ih]

end ProtoVm
