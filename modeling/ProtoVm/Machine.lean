import ProtoVm.Display
import ProtoVm.Event
import ProtoVm.Lookup

/-!
# The machine

The machine runs one process on the heap. An instruction that fails keeps the effects it had up to
that point, because a handler may resume the process from there.
-/

namespace ProtoVm

/-- What instructions read and never change. -/
structure Context where
  roots : Roots
  /-- How many calls a process may have in progress. -/
  maxFrames : Nat

structure Machine where
  heap : Heap
  process : Process
  /-- What happened, the last event first. -/
  journal : List Event := []

abbrev Exec := EStateM Fault Machine

/-- An activation stands for the receiver of its call wherever a value leaves the call. -/
def Heap.effective (heap : Heap) (value : Value) : Value :=
  match heap.object? value with
  | some { payload := .activation receiver, .. } => receiver
  | _ => value

/-- A block that can be called; the activation of a block is none. -/
def Heap.block? (heap : Heap) (value : Value) : Option ObjectId := do
  let id ← value.toId?
  let object := heap.object id
  if object.shape.isBlock && !object.isActivation then some id else none

/-- The report of a lookup that met the end of an earlier one. -/
def Heap.CacheUse.event (name : String) (start : ObjectId) : Heap.CacheUse → Event
  | .hit holder => .cacheHit name start holder
  | .stale => .cacheStale name start

namespace Machine

def note (machine : Machine) (event : Event) : Machine :=
  { machine with journal := event :: machine.journal }

/-- Gives the records of frames back that nothing needs any more. -/
def release : Machine → List Frame → Machine
  | ⟨heap, process, journal⟩, frames =>
    ⟨heap.releaseAll (frames.flatMap (·.releasable)), process, journal⟩

/-- Gives up every stack of the process, running or parked. -/
def unwind (machine : Machine) : Machine :=
  let frames := machine.process.allFrames
  { machine.release frames with process := { machine.process with frames := [], parked := [] } }

def conclude (ctx : Context) (value : Value) (outcome : String → Outcome)
    (machine : Machine) : Machine :=
  let machine := machine.unwind
  let outcome := outcome (machine.heap.display ctx.roots value)
  { machine.note (.finished machine.process.id outcome) with
    process := machine.process.finish outcome }

def finish (ctx : Context) (value : Value) (machine : Machine) : Machine :=
  machine.conclude ctx value (.value value)

def finishWithError (ctx : Context) (value : Value) (cause : Option Fault) (machine : Machine) :
    Machine :=
  machine.conclude ctx value (.error value · cause)

/-- Ends the process with the message of a fault, or with nil if there is no room for it. -/
def terminate (ctx : Context) (fault : Fault) (machine : Machine) : Machine :=
  let machine := (machine.note (.failed machine.process.id fault)).unwind
  match ctx.roots.newString fault.message machine.heap with
  | .ok message heap => { machine with heap }.finishWithError ctx message (some fault)
  | .error _ heap => { machine with heap }.finishWithError ctx (.ref ctx.roots.nil) (some fault)

end Machine

namespace Exec

def note (event : ProcessId → Event) : Exec Unit :=
  modify fun machine => machine.note (event machine.process.id)

def onHeap {α : Type} (action : HeapM α) : Exec α := fun ⟨heap, process, journal⟩ =>
  match action heap with
  | .ok a heap => .ok a ⟨heap, process, journal⟩
  | .error fault heap => .error fault ⟨heap, process, journal⟩

def frame : Exec Frame := do
  match (← get).process.frames with
  | frame :: _ => return frame
  | [] => throw .stackUnderflow

/-- Replaces the innermost frame. -/
def updateFrame (edit : Frame → Frame) : Exec Unit := fun machine =>
  match machine.process.frames with
  | frame :: rest =>
    .ok () { machine with process := { machine.process with frames := edit frame :: rest } }
  | [] => .error .stackUnderflow machine

def push (value : Value) : Exec Unit := updateFrame (·.push value)

def pop : Exec Value := do
  match (← frame).stack with
  | value :: stack =>
    updateFrame ({ · with stack })
    return value
  | [] => throw .stackUnderflow

/-- The value as it leaves the running call. -/
def effective (value : Value) : Exec Value := do return (← get).heap.effective value

/-- Looks a name up for a message to `value`. -/
def lookup (ctx : Context) (value : Value) (name : String) : Exec Lookup := modifyGet fun machine =>
  let start := ctx.roots.startOf value
  let resolved := machine.heap.slotLookup ctx.roots start name
  let events := (resolved.use.map (·.event name start)).toList
  (resolved.result, { machine with heap := resolved.heap, journal := events ++ machine.journal })

/-- The text of a string object that names a slot. -/
def name (ctx : Context) (value : Value) : Exec String := do
  let heap := (← get).heap
  match heap.text? value with
  | some s => return s
  | none => throw (.typeMismatch .string (heap.kindOf ctx.roots value))

end Exec

end ProtoVm
