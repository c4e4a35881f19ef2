import ProtoVm.Code

/-!
# Assembly

A program is written as a list of lines. Each line appends an instruction, adds to the pool or closes
the unit, and a line that fails leaves the unit as it was.
-/

namespace ProtoVm

mutual

/-- A literal as it is written; the unit of an object literal is a list of lines. -/
inductive Entry
  | int (n : Int)
  | float (x : Float)
  | text (s : String)
  | object (kind : ObjectKind) (params : List String) (body : Option (List Line))

inductive Line
  | pushSelf
  | pushNil
  | pushAssignment
  | pop
  | returnTop
  | push (entry : Entry)
  | send (kind : SendKind) (count : UInt8)
  | addSlot (kind : SlotKind)
  /-- A literal push with both operands given, whatever the pool holds. -/
  | pushIndexed (kind : LiteralKind) (index : UInt8)
  /-- Adds to the pool without an instruction. -/
  | pool (entry : Entry)
  | finalize

end

/-- An integer that is pushed has to fit in a value; the pool itself takes any. -/
def Entry.checkRange : Entry → Except Fault Unit
  | .int n => if (Fixnum.ofInt? n).isSome then .ok () else .error (.integerOverflow n)
  | _ => .ok ()

mutual

def Entry.literal : Entry → Except Fault Literal
  | .int n => .ok (.int n)
  | .float x => .ok (.float x)
  | .text s => .ok (.text s)
  | .object kind params none => .ok (.object kind params none)
  | .object kind params (some lines) => do return .object kind params (some (← Code.append {} lines))
termination_by structural entry => entry

def Code.appendLine (code : Code) : Line → Except Fault Code
  | .pushSelf => .ok (code.emit .pushSelf)
  | .pushNil => .ok (code.emit (.pushLiteral .nil 0))
  | .pushAssignment => .ok (code.emit (.pushLiteral .assignment 0))
  | .pop => .ok (code.emit .pop)
  | .returnTop => .ok (code.emit .returnTop)
  | .push entry => do
    entry.checkRange
    code.pushLiteral (← entry.literal)
  | .send kind count => .ok (code.emit (.send kind count))
  | .addSlot kind => .ok (code.emit (.addSlot kind))
  | .pushIndexed kind index => .ok (code.emit (.pushLiteral kind index))
  | .pool entry => do return (← code.addLiteral (← entry.literal)).2
  | .finalize => .ok code.finalize
termination_by structural line => line

def Code.append (code : Code) : List Line → Except Fault Code
  | [] => .ok code
  | line :: rest => do (← code.appendLine line).append rest
termination_by structural lines => lines

end

/-- The unit that `lines` describe. -/
def Code.assemble (lines : List Line) : Except Fault Code := Code.append {} lines

/-- The closed unit that `lines` describe. -/
def Code.compile (lines : List Line) : Except Fault Code := do
  return (← Code.assemble lines).finalize

end ProtoVm
