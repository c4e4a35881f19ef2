import ProtoVm.Heap

/-!
# Processes

A process is a stack of frames, one for each call in progress. A raised error parks the whole stack and
lets the handler run on a new one; the parked stack goes on when its token is restored.
-/

namespace ProtoVm

abbrev ProcessId := Nat

def processName (id : ProcessId) : String := s!"process-{id}"

inductive FrameKind
  | call
  /-- The handler of `error`; returning from it declines the error. -/
  | handler (error : Value)
deriving DecidableEq, Repr

structure Frame where
  body : Body
  /-- The offset of the next instruction. -/
  ip : Nat := 0
  /-- The operands, the last one first. -/
  stack : List Value := []
  /-- The object in which implicit sends of this call begin. -/
  activation : Value
  receiver : Value
  handler : Option Value := none
  kind : FrameKind := .call
  /-- The objects made for this call. -/
  records : List ObjectId := []
  /-- Set once an object literal has this call as its scope. -/
  captured : Bool := false

namespace Frame

def push (frame : Frame) (value : Value) : Frame := { frame with stack := value :: frame.stack }

/-- The records that nothing needs once the frame is gone. -/
def releasable (frame : Frame) : List ObjectId := if frame.captured then [] else frame.records

end Frame

/-- How a process ended. The result is also kept as it was printed at that moment. -/
inductive Outcome
  | value (result : Value) (display : String)
  | error (result : Value) (display : String) (cause : Option Fault)
deriving DecidableEq, Repr

namespace Outcome

def result : Outcome → Value
  | value result _ | error result _ _ => result

def display : Outcome → String
  | value _ display | error _ display _ => display

def cause? : Outcome → Option Fault
  | value .. => none
  | error _ _ cause => cause

def isError : Outcome → Bool
  | value .. => false
  | error .. => true

end Outcome

structure Process where
  id : ProcessId
  /-- The running stack, the innermost call first. -/
  frames : List Frame
  /-- The stacks parked under each token, until they are taken. -/
  parked : List (Option (List Frame)) := []
  outcome : Option Outcome := none

namespace Process

/-- A process about to run `body` as a method of `lobby`. -/
def start (id : ProcessId) (body : Body) (lobby : Value) : Process :=
  { id, frames := [{ body, activation := lobby, receiver := lobby }] }

def isFinished (process : Process) : Bool := process.outcome.isSome

def depth (process : Process) : Nat := process.frames.length

def finish (process : Process) (outcome : Outcome) : Process :=
  { process with frames := [], parked := [], outcome := some outcome }

/-- Parks the running stack; its token has the number of stacks parked before. -/
def suspend (process : Process) : Nat × Process :=
  (process.parked.length,
    { process with frames := [], parked := process.parked ++ [some process.frames] })

/-- The stack parked under `index`, which is taken only once. -/
def takeParked (process : Process) (index : Nat) : Option (List Frame × Process) :=
  match process.parked[index]? with
  | some (some frames) => some (frames, { process with parked := process.parked.set index none })
  | _ => none

/-- All frames of the process from the outermost call on: the running stack, then the parked ones. -/
def allFrames (process : Process) : List Frame :=
  process.frames.reverse ++ process.parked.flatMap fun stack => (stack.getD []).reverse

/-- The handler of the innermost call that has one. -/
def handler? (process : Process) : Option Value := process.frames.findSome? (·.handler)

end Process

end ProtoVm
