import ProtoVm.Heap

/-! # Making objects -/

namespace ProtoVm.Heap

/-- An object of the empty shape. -/
def newObject : HeapM ObjectId := allocate {}

/-- An empty object with a shape of its own. -/
def newObjectWith (behavior : Behavior) : HeapM ObjectId := do
  let id ← freshShape
  allocate { shape := { id, behavior } }

def newWithPayload (payload : Payload) : HeapM ObjectId := allocate { payload }

def newMethod (body : Body) (params : List String) (isBlock : Bool) : HeapM ObjectId := do
  let bindings ← freshShape
  newObjectWith (.method { body, params, isBlock, bindings })

/-- The object that binds the parameters of a call; a search goes on from it to `scope`. -/
def newBinding (method : Method) (args : List Value) (nil scope : Value) : HeapM ObjectId :=
  allocate {
    shape := { id := method.bindings, slots := method.bindingLayout }
    slotValues := method.bindingValues args nil
    scope := some scope }

/-- A copy of an object, changed by `edit`. Copies have the shape in common. -/
def copy (id : ObjectId) (edit : Object → Object) : HeapM ObjectId := do
  allocate (edit ((← get).object id))

def clone (id : ObjectId) : HeapM ObjectId := copy id fun object => object

def cloneWithPayload (id : ObjectId) (payload : Payload) : HeapM ObjectId :=
  copy id ({ · with payload })

/-- A copy of `template` inside the call or object `scope`. -/
def instantiate (template : ObjectId) (scope : Value) : HeapM ObjectId :=
  copy template ({ · with scope := some scope })

/-- The record of a call: a copy of its method object, whose slots are the locals of the call. -/
def newActivation (method : ObjectId) (scope receiver : Value) : HeapM ObjectId :=
  copy method ({ · with scope := some scope, payload := .activation receiver })

end ProtoVm.Heap
