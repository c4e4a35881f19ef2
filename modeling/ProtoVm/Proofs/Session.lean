import Mathlib.Logic.Function.Iterate
import ProtoVm.Demo
import ProtoVm.Proofs.Creation
import ProtoVm.Proofs.PoolSafety

/-!
# Sessions

A session is a scheduler and what its user has in hand: the values and the units the user was given and
copies of objects. The user edits the heap, adds and removes processes and lets them run, in any order,
and can only name what is in hand.
-/

namespace ProtoVm

structure Session where
  scheduler : Scheduler
  known : List Value := []
  copies : List Object := []
  units : List Body := []

/-- What a user asks of the heap. -/
inductive Request
  | newObject
  | newObjectWith (behavior : Behavior)
  | newMethod (body : Body) (params : List String) (isBlock : Bool)
  | allocate (copy : Object)
  | clone (id : ObjectId)
  | instantiate (template : ObjectId) (scope : Value)
  | cloneWithPayload (prototype : ObjectId) (payload : Payload)
  | addSlot (target : ObjectId) (name : String) (value : Value)
  | insertSlot (target : ObjectId) (position : Int) (name : String) (value : Value)
  | eraseSlot (target : ObjectId) (name : String)
  | addParent (target : ObjectId) (name : String) (value : Value)
  | eraseParent (target : ObjectId) (name : String)
  | setSlot (target : ObjectId) (name : String) (value : Value)
  | newString (s : String)
  | newFloat (x : Float)
  | intern (s : String)
  | install (target : ObjectId) (natives : List Native)
  | slotLookup (start : ObjectId) (name : String)
  | parentLookup (start : ObjectId) (name : String)

def Lookup.values : Lookup → List Value
  | .missing => []
  | .found holder value => [.ref holder, value]
  | .ambiguous first second => [.ref first, .ref second]

namespace Request

/-- Carries a request out and gives the values it hands to the user. -/
def run (roots : Roots) : Request → HeapM (List Value)
  | newObject => do return [.ref (← Heap.newObject)]
  | newObjectWith behavior => do return [.ref (← Heap.newObjectWith behavior)]
  | newMethod body params isBlock => do return [.ref (← Heap.newMethod body params isBlock)]
  | allocate copy => do return [.ref (← Heap.allocate copy)]
  | clone id => do return [.ref (← Heap.clone id)]
  | instantiate template scope => do return [.ref (← Heap.instantiate template scope)]
  | cloneWithPayload prototype payload => do return [.ref (← Heap.cloneWithPayload prototype payload)]
  | addSlot target name value => do
    modify (·.addSlot target name value)
    return []
  | insertSlot target position name value => do
    modify (·.insertSlot target position name value)
    return []
  | eraseSlot target name => do
    modify fun heap => (heap.eraseSlot target name).2
    return []
  | addParent target name value => do
    modify (·.addParent target name value)
    return []
  | eraseParent target name => do
    modify fun heap => (heap.eraseParent target name).2
    return []
  | setSlot target name value => do
    modify fun heap => (heap.setSlot target name value).2
    return []
  | newString s => do return [← roots.newString s]
  | newFloat x => do return [← roots.newFloat x]
  | intern s => do return [← roots.intern s]
  | install target natives => do
    Roots.install target natives
    return []
  | slotLookup start name => do
    modify fun heap => (heap.slotLookup roots start name).heap
    return []
  | parentLookup start name => do
    modify fun heap => (heap.parentLookup roots start name).heap
    return []

/-- The values that a request copies, or puts around a copy. -/
def named : Request → List Value
  | clone id | cloneWithPayload id _ => [.ref id]
  | instantiate template scope => [.ref template, scope]
  | _ => []

/-- The object that a request edits, or in which its search begins. -/
def target? : Request → Option ObjectId
  | addSlot id .. | insertSlot id .. | eraseSlot id _ | addParent id .. | eraseParent id _ | setSlot id ..
  | install id _ | slotLookup id _ | parentLookup id _ => some id
  | _ => none

/-- The values that a request stores in an object. -/
def stored : Request → List Value
  | cloneWithPayload _ payload => payload.receiver?.toList
  | addSlot _ _ value | insertSlot _ _ _ value | addParent _ _ value | setSlot _ _ value => [value]
  | _ => []

end Request

namespace Session

abbrev heap (w : Session) : Heap := w.scheduler.heap

abbrev roots (w : Session) : Roots := w.scheduler.roots

abbrev frames (w : Session) : List Frame := w.scheduler.frames

/-- The objects in which the sends of calls in progress begin. -/
def activations (w : Session) : List ObjectId := w.frames.filterMap (·.activation.toId?)

/-- The user has seen the method, in an object or in a copy. -/
def HasMethod (w : Session) (method : Method) : Prop :=
  (∃ id, .ref id ∈ w.known ∧ (w.heap.object id).shape.method? = some method) ∨
    ∃ copy ∈ w.copies, copy.shape.method? = some method

/-- Any object can be edited, but only what is in hand can be copied or stored. A user in `plain` mode stores no
activations. -/
structure Allows (plain : Prop) (w : Session) (r : Request) : Prop where
  target : ∀ id, r.target? = some id → w.heap.isLive id = true
  named : ∀ value ∈ r.named, value ∈ w.known
  stored : ∀ value ∈ r.stored, value ∈ w.known
  storesPlain : plain → ∀ value ∈ r.stored, ∀ object, w.heap.object? value = some object →
    object.isActivation = false
  method : ∀ method, r = .newObjectWith (.method method) → w.HasMethod method
  unit : ∀ body params isBlock, r = .newMethod body params isBlock → body ∈ w.units
  copy : ∀ copy, r = .allocate copy → copy ∈ w.copies

def perform (w : Session) (r : Request) : Session :=
  match r.run w.roots w.heap with
  | .ok values heap => { w with scheduler := { w.scheduler with heap }, known := values ++ w.known }
  | .error _ heap => { w with scheduler := { w.scheduler with heap } }

/-- What the user can read off. -/
inductive Readable (w : Session) : Value → Prop
  | fixnum (n : Fixnum) : Readable w (.fixnum n)
  | root {id : ObjectId} (h : id ∈ w.roots.ids) : Readable w (.ref id)
  | content {id : ObjectId} {value : Value} (hid : .ref id ∈ w.known) (h : value ∈ (w.heap.object id).held) :
      Readable w value
  | scope {id : ObjectId} {value : Value} (hid : .ref id ∈ w.known) (h : (w.heap.object id).scope = some value) :
      Readable w value
  | copied {copy : Object} {value : Value} (hcopy : copy ∈ w.copies) (h : value ∈ copy.held ∨ copy.scope = some value) :
      Readable w value
  | interned {s : String} {id : ObjectId} (h : (s, id) ∈ w.heap.strings) : Readable w (.ref id)
  | result {process : ProcessId} {outcome : Outcome} (h : w.scheduler.outcomes[process]? = some (some outcome)) :
      Readable w outcome.result
  | found {id : ObjectId} {name : String} {value : Value} (hid : .ref id ∈ w.known)
      (h : value ∈ (w.heap.slotLookup w.roots id name).result.values) : Readable w value
  | passed {id target : ObjectId} {defines : Object → Option Value} (hid : .ref id ∈ w.known)
      (h : target ∈ (w.heap.walk w.roots id defines).visited) : Readable w (.ref target)

/-- What can happen in a session. -/
inductive Step (plain : Prop) (w : Session) : Session → Prop
  | request (r : Request) (h : w.Allows plain r) : Step plain w (w.perform r)
  | learn {value : Value} (h : w.Readable value) : Step plain w { w with known := value :: w.known }
  | copy {id : ObjectId} (h : .ref id ∈ w.known) : Step plain w { w with copies := w.heap.object id :: w.copies }
  | load (code : Code) :
      Step plain w { w with scheduler := (w.scheduler.load code).2, units := (w.scheduler.load code).1 :: w.units }
  | add {body : Body} (h : body ∈ w.units) : Step plain w { w with scheduler := (w.scheduler.addProcess body).2 }
  | remove (id : ProcessId) : Step plain w { w with scheduler := (w.scheduler.removeProcess id).2 }
  | run (limit : Nat) : Step plain w { w with scheduler := (w.scheduler.runOnce limit).2 }
  | tick (index : Nat) : Step plain w { w with scheduler := w.scheduler.tick index }
  | note (event : Event) : Step plain w { w with scheduler := w.scheduler.note event }

inductive Reachable (plain : Prop) : Session → Prop
  | start {config : Config} {maxObjects : Nat} {s : Scheduler} (h : Scheduler.create config maxObjects = .ok s) :
      Reachable plain { scheduler := s }
  | step {w w' : Session} (hw : Reachable plain w) (h : w.Step plain w') : Reachable plain w'

/-- A session in which one process has come `ticks` instructions far with a program. -/
def rehearsal (lines : List Line) (ticks : Nat) : Option Session :=
  match Scheduler.create {} 100, Code.compile lines with
  | .ok s, .ok code =>
    let (body, s) := s.load code
    some { scheduler := (fun s : Scheduler => s.tick 0)^[ticks] (s.addProcess body).2, units := [body] }
  | _, _ => none

theorem reachable_of_rehearsal {plain : Prop} {lines : List Line} {ticks : Nat} {w : Session}
    (h : rehearsal lines ticks = some w) : w.Reachable plain := by
  unfold rehearsal at h
  split at h
  · rename_i s code hs hcode
    simp only [Option.some.injEq] at h
    subst h
    induction ticks with
    | zero => exact .step (.step (.start hs) (.load code)) (.add List.mem_cons_self)
    | succ ticks ih =>
      rw [Function.iterate_succ_apply']
      exact .step ih (.tick 0)
  · cases h

/-- A session in which one process has come `ticks` instructions far with a demonstration program. -/
def trial (demo : Demo) (ticks : Nat) : Option Session := rehearsal demo.lines ticks

theorem reachable_of_trial {plain : Prop} {demo : Demo} {ticks : Nat} {w : Session}
    (h : trial demo ticks = some w) : w.Reachable plain :=
  @reachable_of_rehearsal plain demo.lines ticks w h

end Session

end ProtoVm
