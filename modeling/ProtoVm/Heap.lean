import ProtoVm.Object

/-!
# The heap

Objects live in numbered cells. A cell that is given back is handed out again under its next
generation, so that the id of an object never names its successor.
-/

namespace ProtoVm

structure Cell where
  generation : Nat
  occupant : Option Object

/-- The version that an object had when a search passed it. -/
structure Checkpoint where
  object : ObjectId
  version : Nat
deriving DecidableEq, Repr

/-- Where a search ended, and what has to be unchanged for it to end there again. -/
structure CachedSlot where
  holder : ObjectId
  checkpoints : List Checkpoint
  scope : Option Value
  parents : List Value
deriving DecidableEq, Repr

structure Heap where
  cells : Array Cell := #[]
  /-- Cells given back, the last one first. -/
  free : List Nat := []
  /-- How many cells there may be. -/
  limit : Nat
  /-- The version of the last structural edit. -/
  version : Nat := 0
  /-- The number of the next shape. -/
  nextShape : ShapeId := 1
  /-- The number of the next unit that is loaded. -/
  nextUnit : Nat := 0
  /-- Ends of earlier searches, by the shape of the object they began in and the name. -/
  cache : List ((ShapeId × String) × CachedSlot) := []
  /-- The one object for each text that programs name. -/
  strings : List (String × ObjectId) := []
  /-- The object from which each object literal is copied. -/
  templates : List (Site × ObjectId) := []

/-- Operations on the heap that can fail; what they did before stays done. -/
abbrev HeapM := EStateM Fault Heap

namespace Heap

/-- The number of cells that an id can name. -/
def maxObjects : Nat := 0xffffffff

/-- An empty heap for at most `limit` objects. -/
def empty (limit : Nat) : Heap := { limit := min limit maxObjects }

/-- The number of objects. -/
def size (heap : Heap) : Nat := heap.cells.size - heap.free.length

def get? (heap : Heap) (id : ObjectId) : Option Object :=
  match heap.cells[id.index]? with
  | some cell => if cell.generation = id.generation then cell.occupant else none
  | none => none

def isLive (heap : Heap) (id : ObjectId) : Bool := (heap.get? id).isSome

/-- The object named `id`, an empty one when there is none. -/
def object (heap : Heap) (id : ObjectId) : Object := (heap.get? id).getD {}

def object? (heap : Heap) (value : Value) : Option Object := value.toId?.map heap.object

def text? (heap : Heap) (value : Value) : Option String :=
  match heap.object? value with
  | some { payload := .text s, .. } => some s
  | _ => none

def float? (heap : Heap) (value : Value) : Option Float :=
  match heap.object? value with
  | some { payload := .float x, .. } => some x
  | _ => none

def versionOf (heap : Heap) (id : ObjectId) : Nat := (heap.object id).shape.version

def allocate (object : Object) : HeapM ObjectId := fun heap =>
  match heap.free with
  | index :: free =>
    let generation := (heap.cells[index]?.map (·.generation)).getD 0
    .ok ⟨index, generation⟩
      { heap with cells := heap.cells.setIfInBounds index ⟨generation, some object⟩, free }
  | [] =>
    if heap.cells.size < heap.limit then
      .ok ⟨heap.cells.size, 0⟩ { heap with cells := heap.cells.push ⟨0, some object⟩ }
    else .error (.heapExhausted heap.limit) heap

/-- Gives the cell of an object back. A cell that has had all its generations is not used again. -/
def release (heap : Heap) (id : ObjectId) : Heap :=
  if heap.isLive id then
    { heap with
      cells := heap.cells.setIfInBounds id.index ⟨id.generation + 1, none⟩
      free := if id.generation < ObjectId.maxGeneration then id.index :: heap.free else heap.free }
  else heap

def releaseAll (heap : Heap) (ids : List ObjectId) : Heap := ids.foldl release heap

/-- Replaces an object; without effect on an id that is not live. -/
def update (heap : Heap) (id : ObjectId) (edit : Object → Object) : Heap :=
  match heap.get? id with
  | some object =>
    { heap with cells := heap.cells.setIfInBounds id.index ⟨id.generation, some (edit object)⟩ }
  | none => heap

/-- The live objects. -/
def objects (heap : Heap) : List Object := heap.cells.toList.filterMap (·.occupant)

def freshShape : HeapM ShapeId :=
  modifyGet fun heap => (heap.nextShape, { heap with nextShape := heap.nextShape + 1 })

/-- Numbers a unit, so that its object literals can be told from those of other units. -/
def load (heap : Heap) (code : Code) : Body × Heap :=
  (⟨code, [heap.nextUnit]⟩, { heap with nextUnit := heap.nextUnit + 1 })

end Heap

end ProtoVm
