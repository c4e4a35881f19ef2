import ProtoVm.Proofs.Failure
import ProtoVm.Proofs.StepEffect

/-!
# What a call sees

A call finds the slots of its method in its activation and its parameters in the object that binds them, behind the
activation. From there the search goes on to the receiver, or for a block to the place where the block was made.
-/

namespace ProtoVm

/-! ## Arguments -/

namespace Layout

variable {layout : Layout} {name other : String} {value : Value} {values : List Value} {index : Nat}

namespace Stores

theorem fill (h : layout.Stores values) (entry : String × Value) : layout.Stores (Heap.fill layout values entry) :=
  h.of_length ((Heap.length_fill layout values entry).trans h.length_eq)

end Stores

end Layout

namespace Method

variable {method : Method} {args : List Value} {nil arg : Value} {name : String}

end Method

/-! ## Records -/

/-- What is called, and where the search for names leads from the records of the call. -/
structure Callee where
  object : ObjectId
  method : Method
  lexical : Value

namespace Heap

variable {heap heap' : Heap} {roots : Roots} {callee : Callee} {args : List Value} {receiver : Value} {records : Records}
  {name : String}

/-- What a search finds that begins in the activation of a call. The call is made in `heap`, and `heap'` is the heap with
its records. -/
structure Convention (roots : Roots) (heap : Heap) (callee : Callee) (args : List Value) (records : Records)
    (heap' : Heap) : Prop where
  slot : ∀ name value, (heap.object callee.object).slot? name = some value →
    (heap'.slotLookup roots records.activation name).result = .found records.activation value
  /-- The argument at the last place that is supplied for the name. -/
  argument : ∀ (name : String) (i : Nat) (arg : Value), (heap.object callee.object).slot? name = none →
    callee.method.params[i]? = some name → args[i]? = some arg →
    (∀ j, i < j → j < args.length → callee.method.params[j]? ≠ some name) →
    ∃ binding, records.binding = some binding ∧
      (heap'.slotLookup roots records.activation name).result = .found binding (heap.effective arg)
  /-- No place for the name is supplied. -/
  default : ∀ name ∈ callee.method.params, (heap.object callee.object).slot? name = none →
    (∀ j, j < args.length → callee.method.params[j]? ≠ some name) →
    ∃ binding, records.binding = some binding ∧
      (heap'.slotLookup roots records.activation name).result = .found binding (.ref roots.nil)
  bare : callee.method.params = [] →
    records.binding = none ∧ (heap'.object records.activation).scope = some callee.lexical
  bound : callee.method.params ≠ [] → ∃ binding, records.binding = some binding ∧
    (heap'.object records.activation).scope = some (.ref binding) ∧ (heap'.object binding).scope = some callee.lexical

end Heap

/-! ## Calls -/

/-- The machine `k` is `m` with a new frame on top, for a call by the convention. -/
def Machine.Enters (ctx : Context) (m : Machine) (callee : Callee) (args : List Value) (k : Machine) : Prop :=
  ∃ (frame : Frame) (callers : List Frame) (records : Records),
    k.process.frames = frame :: callers ∧ callers.length = m.process.frames.length ∧ frame.body = callee.method.body ∧
      frame.activation = .ref records.activation ∧ frame.records = records.ids ∧
      m.heap.Convention ctx.roots callee args records k.heap

namespace Exec

variable {ctx : Context} {m k : Machine} {callee : Callee} {selector : String} {receiver : Value} {args : List Value}
  {kind : FrameKind} {message : Message}

end Exec

namespace Machine

variable {ctx : Context} {m : Machine} {message : Exec.Message}

end Machine

namespace Session

open Exec

variable {plain : Prop} {w : Session}

end Session

end ProtoVm
