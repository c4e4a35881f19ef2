import ProtoVm.Heap

/-!
# Editing objects

A structural edit gives the object a new shape with the next version, whoever had the old shape in
common with it. Assigning to a slot that exists is no structural edit.
-/

namespace ProtoVm.Heap

def restructure (heap : Heap) (id : ObjectId) (edit : Object → Object) : Heap :=
  let shape := heap.nextShape
  let version := heap.version + 1
  let heap := heap.update id fun object => (edit object).stamp shape version
  { heap with version, nextShape := shape + 1 }

/-- A slot that exists keeps its place and gets the new value. -/
def addSlot (heap : Heap) (id : ObjectId) (name : String) (value : Value) : Heap :=
  heap.restructure id (·.addSlot name value)

def insertSlot (heap : Heap) (id : ObjectId) (position : Int) (name : String) (value : Value) : Heap :=
  heap.restructure id (·.insertSlot position name value)

def hasSlot (heap : Heap) (id : ObjectId) (name : String) : Bool :=
  (heap.object id).shape.slots.contains name

def hasParent (heap : Heap) (id : ObjectId) (name : String) : Bool :=
  (heap.object id).shape.parents.contains name

/-- Whether there was such a slot, and the heap without it. -/
def eraseSlot (heap : Heap) (id : ObjectId) (name : String) : Bool × Heap :=
  if heap.hasSlot id name then (true, heap.restructure id (·.eraseSlot name)) else (false, heap)

def addParent (heap : Heap) (id : ObjectId) (name : String) (value : Value) : Heap :=
  heap.restructure id (·.addParent name value)

@[inherit_doc eraseSlot]
def eraseParent (heap : Heap) (id : ObjectId) (name : String) : Bool × Heap :=
  if heap.hasParent id name then (true, heap.restructure id (·.eraseParent name)) else (false, heap)

/-- Assigns to a slot, if the object has it. -/
def setSlot (heap : Heap) (id : ObjectId) (name : String) (value : Value) : Bool × Heap :=
  match (heap.object id).shape.slots.index? name with
  | some index => (true, heap.update id (·.setSlot index value))
  | none => (false, heap)

/-- Whether anything else has this object's shape: the heap itself, another object, or a method as the
shape of its bindings. -/
def isShapeShared (heap : Heap) (id : ObjectId) : Bool :=
  let shape := (heap.object id).shape.id
  shape == 0
    || 1 < heap.objects.countP (·.shape.id == shape)
    || heap.objects.any fun object => object.shape.method?.any (·.bindings == shape)

end ProtoVm.Heap
