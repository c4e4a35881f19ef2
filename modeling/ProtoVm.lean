import ProtoVm.Binary64
import ProtoVm.Bytecode
import ProtoVm.Bytecode.Instruction
import ProtoVm.Code
import ProtoVm.Code.Assembly
import ProtoVm.Code.Draft
import ProtoVm.Code.Listing
import ProtoVm.CommandLine
import ProtoVm.Decimal.Positional
import ProtoVm.Decimal.Shortest
import ProtoVm.Demo
import ProtoVm.Display
import ProtoVm.Event
import ProtoVm.Fault
import ProtoVm.Heap
import ProtoVm.Heap.Cache
import ProtoVm.Heap.Edit
import ProtoVm.Heap.Make
import ProtoVm.Layout
import ProtoVm.Lookup
import ProtoVm.Machine
import ProtoVm.Machine.Call
import ProtoVm.Machine.Raise
import ProtoVm.Machine.Send
import ProtoVm.Machine.Step
import ProtoVm.Main
import ProtoVm.Native
import ProtoVm.Native.Run
import ProtoVm.Object
import ProtoVm.Process
import ProtoVm.Roots
import ProtoVm.Scheduler
import ProtoVm.Selector
import ProtoVm.Text.Combining
import ProtoVm.Text.Numeral
import ProtoVm.Text.Printable
import ProtoVm.Text.Quoted
import ProtoVm.Value
import ProtoVm.Value.Signed
import ProtoVm.Value.Tagged
import ProtoVm.Value.Word
import ProtoVm.Proofs.Arena
import ProtoVm.Proofs.Change
import ProtoVm.Proofs.Walk
import ProtoVm.Proofs.CachedSearch
import ProtoVm.Proofs.Effects
import ProtoVm.Proofs.Custody
import ProtoVm.Proofs.Making
import ProtoVm.Proofs.NativeSafety
import ProtoVm.Proofs.MachineSafety
import ProtoVm.Proofs.Creation
import ProtoVm.Proofs.Session
import ProtoVm.Proofs.SessionSafety
import ProtoVm.Proofs.Confinement
import ProtoVm.Proofs.BlockScope
import ProtoVm.Proofs.Moves
import ProtoVm.Proofs.Resumption
import ProtoVm.Proofs.OperandStack
import ProtoVm.Proofs.Rank
import ProtoVm.Proofs.Termination
import ProtoVm.Proofs.Matching
import ProtoVm.Proofs.Mirror
import ProtoVm.Proofs.Lockstep
import ProtoVm.Proofs.Twins
import ProtoVm.Proofs.FreshSession
import ProtoVm.Proofs.Independence
import ProtoVm.Proofs.Acts
import ProtoVm.Proofs.Rules
import ProtoVm.Proofs.MachineRules
import ProtoVm.Proofs.Anatomy
import ProtoVm.Proofs.Passage
import ProtoVm.Proofs.Upkeep
import ProtoVm.Proofs.Reclamation
import ProtoVm.Proofs.Lifecycle
import ProtoVm.Proofs.Representation
import ProtoVm.Proofs.InstructionStream
import ProtoVm.Proofs.Assembled
import ProtoVm.Proofs.Executable
import ProtoVm.Proofs.BreadthFirst
import ProtoVm.Proofs.History
import ProtoVm.Proofs.SiblingSearch
import ProtoVm.Proofs.Fairness
import ProtoVm.Proofs.RunRules
import ProtoVm.Proofs.Footprint
import ProtoVm.Proofs.HeapRuns
import ProtoVm.Proofs.Checkpoints
import ProtoVm.Proofs.Ledger
import ProtoVm.Proofs.StepEffect
import ProtoVm.Proofs.Handlers
import ProtoVm.Proofs.Failure
import ProtoVm.Proofs.Abandonment
import ProtoVm.Proofs.CallingConvention
import ProtoVm.Proofs.Literals
import ProtoVm.Proofs.Capture
import ProtoVm.Proofs.Circulation
import ProtoVm.Proofs.Reserve
import ProtoVm.Proofs.Templates
import ProtoVm.Proofs.Resend
import ProtoVm.Proofs.Journal
import ProtoVm.Proofs.Preemption
import ProtoVm.Proofs.LiteralPool
import ProtoVm.Proofs.Finalization
import ProtoVm.Proofs.LineText
import ProtoVm.Proofs.ListedCode
import ProtoVm.Proofs.BlockSelectors
import ProtoVm.Proofs.FixnumArithmetic
import ProtoVm.Proofs.Tagging
import ProtoVm.Proofs.Interning
