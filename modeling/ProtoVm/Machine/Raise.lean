import ProtoVm.Machine.Call

/-!
# Errors

An error is handed to the handler of the innermost call that has one, together with a token for the
stack it interrupted. Restoring the token puts that stack in place of the handler's.
-/

namespace ProtoVm.Exec

def suspend : Exec Nat := modifyGet fun machine =>
  let (index, process) := machine.process.suspend
  (index, { machine with process })

/-- Hands `value` to the handler, or ends the process if there is none. -/
def raise (ctx : Context) (value : Value) (cause : Option Fault) : Exec Unit := do
  let machine ← get
  match machine.process.handler?.bind machine.heap.block? with
  | none =>
    note .unhandled
    modify (·.finishWithError ctx value cause)
  | some block =>
    let arity := ((machine.heap.object block).shape.method?.map (·.arity)).getD 0
    let index ← suspend
    let token ← onHeap (Heap.newWithPayload (.token machine.process.id index))
    note (.suspended · index)
    callBlock ctx block "handler" ([value, .ref token].take arity) (.handler value)

/-- Lets the stack behind `token` go on with `value` as the result of the send that raised. -/
def restore (token value : Value) : Exec Unit := do
  let machine ← get
  match machine.heap.object? token with
  | some { payload := .token owner index, .. } =>
    if owner ≠ machine.process.id then throw .invalidToken
    match machine.process.takeParked index with
    | none => throw .invalidToken
    | some (frames, process) =>
      note (.resumed · index)
      modify fun machine =>
        { machine.release process.frames.reverse with process := { process with frames } }
      push value
  | _ => throw .invalidToken

end ProtoVm.Exec
