import ProtoVm.Machine

/-!
# Calls

A call copies its method or block object, so that the slots of the copy are private to the call. The
arguments are bound in an object of their own, in which the search goes on from the copy.
-/

namespace ProtoVm

/-- The objects made for a call. -/
structure Records where
  activation : ObjectId
  binding : Option ObjectId

def Records.ids (records : Records) : List ObjectId := records.activation :: records.binding.toList

namespace Heap

/-- Gives `id` back if the action fails. -/
def releaseOnFault {α : Type} (id : ObjectId) (action : HeapM α) : HeapM α := fun heap =>
  match action heap with
  | .ok a heap => .ok a heap
  | .error fault heap => .error fault (heap.release id)

/-- Makes the objects of a call, or none of them. -/
def newRecords (object : ObjectId) (method : Method) (args : List Value)
    (nil lexical receiver : Value) : HeapM Records :=
  if method.params.isEmpty then do
    return ⟨← newActivation object lexical receiver, none⟩
  else do
    let binding ← newBinding method args nil lexical
    let activation ← releaseOnFault binding (newActivation object (.ref binding) receiver)
    return ⟨activation, some binding⟩

end Heap

namespace Exec

/-- Calls a method or block object. The search for names leads from the call's own objects to
`lexical`. -/
def activate (ctx : Context) (object : ObjectId) (method : Method) (selector : String)
    (receiver lexical : Value) (args : List Value) (kind : FrameKind) : Exec Unit := do
  if method.arity < args.length then
    throw (.arityMismatch selector method.arity args.length)
  let machine ← get
  if ctx.maxFrames ≤ machine.process.depth then
    throw (.stackOverflow ctx.maxFrames)
  let args := args.map machine.heap.effective
  let records ← onHeap (Heap.newRecords object method args (.ref ctx.roots.nil) lexical receiver)
  note (.activated · selector records.activation)
  let frame : Frame :=
    { body := method.body, activation := .ref records.activation, receiver, kind,
      records := records.ids }
  modify fun machine =>
    { machine with process := { machine.process with frames := frame :: machine.process.frames } }

/-- Calls a block in the call in which it was made. -/
def callBlock (ctx : Context) (block : ObjectId) (selector : String) (args : List Value)
    (kind : FrameKind) : Exec Unit := do
  let heap := (← get).heap
  let object := heap.object block
  match object.shape.method? with
  | none => throw (.typeMismatch .block (heap.kindOf ctx.roots (.ref block)))
  | some method =>
    let lexical := object.scope.getD (.ref ctx.roots.nil)
    activate ctx block method selector (heap.effective lexical) lexical args kind

/-- Takes the innermost frame off the stack and gives its records back. -/
def leave : Exec Unit := modify fun machine =>
  match machine.process.frames with
  | [] => machine
  | frame :: callers =>
    { machine with process := { machine.process with frames := callers } }.release [frame]

/-- Ends the innermost call with the last value it computed. -/
def returnTop (ctx : Context) : Exec Unit := do
  let frame ← frame
  match frame.kind with
  | .handler error =>
    leave
    note .declined
    modify (·.finishWithError ctx error none)
  | .call =>
    let value ← effective (frame.stack.head?.getD (.ref ctx.roots.nil))
    leave
    if (← get).process.frames.isEmpty then modify (·.finish ctx value) else push value

end Exec

end ProtoVm
