import ProtoVm.Machine.Send

/-! # Instructions at work -/

namespace ProtoVm

namespace Heap

/-- The object from which the literal written at `site` is copied. It is made once. -/
def template (site : Site) (kind : ObjectKind) (params : List String) (code : Option Code) :
    HeapM ObjectId := do
  match (← get).templates.lookup site with
  | some id => return id
  | none =>
    let body : Body := ⟨(code.getD {}).finalize, site⟩
    let id ← match kind with
      | .plain => newObject
      | .method => newMethod body params false
      | .block => newMethod body params true
    modify fun heap => { heap with templates := (site, id) :: heap.templates }
    return id

end Heap

namespace Exec

/-- A copy of an object literal with the running call as its scope. -/
def instantiate (site : Site) (kind : ObjectKind) (params : List String) (code : Option Code) :
    Exec Value := do
  let template ← onHeap (Heap.template site kind params code)
  let scope := (← frame).activation
  updateFrame ({ · with captured := true })
  return .ref (← onHeap (Heap.instantiate template scope))

def literal (ctx : Context) (kind : LiteralKind) (index : UInt8) : Exec Value := do
  match kind with
  | .nil => return .ref ctx.roots.nil
  | .assignment => return .ref ctx.roots.assignment
  | _ =>
    let body := (← frame).body
    let l ← liftExcept (body.code.literal index.toNat)
    if l.kind ≠ kind then throw (.literalMismatch kind)
    match l with
    | .int n => match Value.ofInt? n with
      | some value => return value
      | none => throw (.integerOverflow n)
    | .float x => onHeap (ctx.roots.newFloat x)
    | .text s => onHeap (ctx.roots.intern s)
    | .object kind params code => instantiate (body.site ++ [index.toNat]) kind params code

/-- Adds a slot or parent to an object and leaves the object as the operand. -/
def addSlot (ctx : Context) (kind : SlotKind) : Exec Unit := do
  let value ← pop
  let slot ← pop
  let target ← pop
  let slot ← name ctx slot
  match target with
  | .fixnum _ => throw (.typeMismatch .object .fixnum)
  | .ref id =>
    let value ← effective value
    onHeap <| modify fun heap => match kind with
      | .normal => heap.addSlot id slot value
      | .parent => heap.addParent id slot value
    push target

/-- Reads the next instruction and moves past it. -/
def fetch : Exec Instruction := do
  let frame ← frame
  let instruction ← liftExcept (Instruction.decode frame.body.code.bytes frame.ip)
  note (.executed · frame.ip instruction)
  updateFrame ({ · with ip := frame.ip + instruction.length })
  return instruction

def step (ctx : Context) : Exec Unit := do
  match ← fetch with
  | .pushSelf => updateFrame fun frame => frame.push frame.activation
  | .pushLiteral kind index => push (← literal ctx kind index)
  | .pop => discard pop
  | .send kind count => send ctx kind count
  | .returnTop => returnTop ctx
  | .addSlot kind => addSlot ctx kind

end Exec

namespace Machine

/-- After a failed search the handler runs with the message; any other fault ends the process. -/
def fail (ctx : Context) (fault : Fault) (machine : Machine) : Machine :=
  let report : Exec Unit := do
    let message ← Exec.onHeap (ctx.roots.newString fault.message)
    Exec.raise ctx message (some fault)
  if fault.isRecoverable then
    match report machine with
    | .ok _ machine => machine
    | .error fault machine => machine.terminate ctx fault
  else machine.terminate ctx fault

/-- One instruction, with whatever follows from its failure. -/
def advance (ctx : Context) (machine : Machine) : Machine :=
  match Exec.step ctx machine with
  | .ok _ machine => machine
  | .error fault machine => machine.fail ctx fault

/-- At most `budget` instructions. -/
def run (ctx : Context) : Nat → Machine → Machine
  | 0, machine => machine
  | budget + 1, machine =>
    if machine.process.isFinished then machine else run ctx budget (machine.advance ctx)

end Machine

end ProtoVm
