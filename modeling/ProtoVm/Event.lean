import ProtoVm.Bytecode.Instruction
import ProtoVm.Heap
import ProtoVm.Process

/-!
# Events

What the machine reports about its work, with the importance of each report.
-/

namespace ProtoVm

inductive Level
  | trace | debug | info | warn
deriving DecidableEq, Repr

def Level.name : Level → String
  | trace => "TRACE" | debug => "DEBUG" | info => "INFO" | warn => "WARN"

/-- Why a turn of a process ended. -/
inductive Turn
  | finished
  | preempted
deriving DecidableEq, Repr

def Turn.name : Turn → String
  | finished => "Finished"
  | preempted => "Preempted"

inductive Event
  | cacheHit (name : String) (start holder : ObjectId)
  | cacheStale (name : String) (start : ObjectId)
  | executed (process : ProcessId) (ip : Nat) (instruction : Instruction)
  | sent (process : ProcessId) (selector : String) (receiver : Value)
  | ambiguous (selector : String) (first second : ObjectId)
  | halted (process : ProcessId)
  | activated (process : ProcessId) (selector : String) (activation : ObjectId)
  | declined (process : ProcessId)
  | unhandled (process : ProcessId)
  | suspended (process : ProcessId) (index : Nat)
  | resumed (process : ProcessId) (index : Nat)
  | failed (process : ProcessId) (fault : Fault)
  | finished (process : ProcessId) (outcome : Outcome)
  | added (process : ProcessId)
  | removed (process : ProcessId)
  | retired (process : ProcessId)
  | turnEnded (process : ProcessId) (turn : Turn)
deriving DecidableEq, Repr

namespace Event

def level : Event → Level
  | cacheHit .. | cacheStale .. | executed .. | sent .. | ambiguous .. | activated ..
  | turnEnded .. => .trace
  | halted _ => .info
  | failed .. => .warn
  | _ => .debug

def text : Event → String
  | cacheHit name start holder => s!"lookup cache hit: `{name}` on {start.text} held by {holder.text}"
  | cacheStale name start => s!"lookup cache stale: `{name}` on {start.text}"
  | executed p ip instruction => s!"{processName p} {Text.offset ip} {instruction.text}"
  | sent p selector receiver => s!"{processName p} send `{selector}` to {receiver.text}"
  | ambiguous selector first second => s!"`{selector}` defined by both {first.text} and {second.text}"
  | halted p => s!"{processName p} halted"
  | activated p selector activation => s!"{processName p} activate `{selector}` as {activation.text}"
  | declined p => s!"{processName p} handler returned without resuming"
  | unhandled p => s!"{processName p} raised without handler"
  | suspended p index => s!"{processName p} raised, suspended as token {index}"
  | resumed p index => s!"{processName p} resumed token {index}"
  | failed p fault => s!"{processName p} failed: {fault.message}"
  | finished p (.value _ display) => s!"{processName p} finished with {display}"
  | finished p (.error _ display _) => s!"{processName p} finished with error {display}"
  | added p => s!"{processName p} added"
  | removed p => s!"{processName p} removed"
  | retired p => s!"{processName p} retired"
  | turnEnded p turn => s!"{processName p} turn ended: {turn.name}"

def line (event : Event) : String := event.level.name ++ " " ++ event.text

end Event

end ProtoVm
