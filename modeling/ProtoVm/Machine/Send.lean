import ProtoVm.Machine.Raise
import ProtoVm.Native.Run
import ProtoVm.Selector

/-!
# Sends

A send looks its selector up and does what the object in the slot asks for: the object itself is the
result, or an assignment, a native or a method runs.
-/

namespace ProtoVm.Exec

/-- Assigns to the slot beside the one that holds the assignment object. -/
def assign (holder : ObjectId) (selector : String) (receiver : Value) (args : List Value) :
    Exec Unit := do
  match args with
  | [value] =>
    let value ← effective value
    let receiver ← effective receiver
    let target := Selector.assigned selector
    if ← onHeap (modifyGet (·.setSlot holder target value)) then push receiver
    else throw (.missingSlot target)
  | _ => throw (.arityMismatch selector 1 args.length)

/-- Goes on as a native asks. -/
def follow (ctx : Context) : Reply → Exec Unit
  | .answer value => push value
  | .halt value => do
    note .halted
    modify (·.finish ctx value)
  | .raise value => raise ctx value none
  | .handler block =>
    updateFrame fun frame => { frame with handler := some block }.push (.ref ctx.roots.nil)
  | .restore token value => restore token value

def callNative (ctx : Context) (native : Native) (selector : String) (receiver : Value)
    (args : List Value) : Exec Unit := do
  if args.length ≠ native.arity then
    throw (.arityMismatch selector native.arity args.length)
  let receiver ← effective receiver
  let args := args.map (← get).heap.effective
  follow ctx (← onHeap (native.run ctx.roots receiver args))

/-- Looks `selector` up, for a resend from the value of the nearest parent slot with that name. -/
def resolve (ctx : Context) (receiver : Value) (selector : String) : Option String → Exec Lookup
  | none => lookup ctx receiver selector
  | some parent => do
    match (← get).heap.parentSlotLookup ctx.roots (ctx.roots.startOf receiver) parent with
    | .found _ value => lookup ctx value selector
    | .ambiguous .. => throw (.ambiguousSlot parent)
    | .missing => throw (.missingParent parent)

/-- What a send does with the object it found; an activation is never entered again. -/
def behaviorOf (heap : Heap) (value : Value) : Behavior :=
  match heap.object? value with
  | some object => if object.isActivation then .data else object.shape.behavior
  | none => .data

/-- Uses what a send found in a slot. A block in a slot is data until it is called. -/
def apply (ctx : Context) (holder : ObjectId) (value receiver : Value) (selector : String)
    (args : List Value) : Exec Unit := do
  match behaviorOf (← get).heap value, value with
  | .assignment, _ => assign holder selector receiver args
  | .native native, _ => callNative ctx native selector receiver args
  | .method method, .ref object =>
    if method.isBlock then push (← effective value)
    else
      let receiver ← effective receiver
      activate ctx object method selector receiver receiver args .call
  | _, _ => push (← effective value)

def dispatch (ctx : Context) (receiver : Value) (selector : String) (parent : Option String)
    (args : List Value) : Exec Unit := do
  let heap := (← get).heap
  let calls := parent.isNone && Selector.isBlockCall selector args.length
  match if calls then heap.block? receiver else none with
  | some block => callBlock ctx block selector args .call
  | none =>
    match ← resolve ctx receiver selector parent with
    | .found holder value => apply ctx holder value receiver selector args
    | .missing => throw (.missingSlot selector)
    | .ambiguous first second =>
      note fun _ => .ambiguous selector first second
      throw (.ambiguousSlot selector)

/-- Takes the operands of a send: arguments in order and the receiver below them. -/
def popOperands (argc : Nat) : Exec (Value × List Value) := do
  let frame ← frame
  match frame.stack.drop argc with
  | receiver :: stack =>
    updateFrame ({ · with stack })
    return (receiver, (frame.stack.take argc).reverse)
  | [] => throw .stackUnderflow

def send (ctx : Context) (kind : SendKind) (count : UInt8) : Exec Unit := do
  let selector ← pop
  let parent ← if kind.isResend then some <$> pop else pure none
  let (receiver, args) ← popOperands (kind.argCount count)
  let selector ← name ctx selector
  let parent ← parent.mapM (name ctx)
  note (.sent · selector receiver)
  dispatch ctx receiver selector parent args

end ProtoVm.Exec
