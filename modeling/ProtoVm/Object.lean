import ProtoVm.Code
import ProtoVm.Layout
import ProtoVm.Native

/-!
# Objects

An object is a shape, which objects of the same structure have in common, and the values of its slots
and parents, stored where the shape says.
-/

namespace ProtoVm

/-- Where a unit or a literal was written: the number of a loaded unit, and from there the pool index
of a literal at each level. -/
abbrev Site := List Nat

/-- Code that can run, and where it was written. -/
structure Body where
  code : Code
  site : Site

/-- Shapes are told apart by number; zero is the shape of empty objects. -/
abbrev ShapeId := Nat

structure Method where
  body : Body
  params : List String
  isBlock : Bool
  /-- The shape of the objects that bind the parameters of a call. -/
  bindings : ShapeId

namespace Method

def arity (method : Method) : Nat := method.params.length

/-- A parameter named twice has one slot. -/
def bindingLayout (method : Method) : Layout := Layout.ofNames method.params

/-- The values of a call's parameters in storage order. Parameters without an argument are `nil`, and
of two arguments for one name the later counts. -/
def bindingValues (method : Method) (args : List Value) (nil : Value) : List Value :=
  let layout := method.bindingLayout
  (method.params.zip args).foldl
    (fun values (name, arg) => match layout.index? name with
      | some index => values.set index arg
      | none => values)
    (List.replicate layout.length nil)

end Method

/-- What a send does when it finds an object in a slot. -/
inductive Behavior
  | data
  | method (method : Method)
  | native (native : Native)
  | assignment

structure Shape where
  id : ShapeId := 0
  slots : Layout := []
  parents : Layout := []
  /-- The number of the structural edit that made this shape. -/
  version : Nat := 0
  behavior : Behavior := .data

namespace Shape

def method? (shape : Shape) : Option Method :=
  match shape.behavior with
  | .method m => some m
  | _ => none

def isBlock (shape : Shape) : Bool := shape.method?.any (·.isBlock)

end Shape

/-- What an object holds beside its slots. -/
inductive Payload
  | none
  | float (x : Float)
  | text (s : String)
  /-- The record of a call in progress. -/
  | activation (receiver : Value)
  /-- Stands for the stack that a process parked under `index`. -/
  | token (process : Nat) (index : Nat)

structure Object where
  shape : Shape := {}
  slotValues : List Value := []
  parentValues : List Value := []
  /-- Where a search continues that began in this object: the enclosing call or its bindings. -/
  scope : Option Value := none
  payload : Payload := .none

namespace Object

def slot? (object : Object) (name : String) : Option Value :=
  (object.shape.slots.index? name).bind (object.slotValues[·]?)

def parent? (object : Object) (name : String) : Option Value :=
  (object.shape.parents.index? name).bind (object.parentValues[·]?)

/-- The slots with their values, in the order in which they are shown. -/
def slots (object : Object) : List (String × Option Value) :=
  object.shape.slots.map fun (name, index) => (name, object.slotValues[index]?)

/-- Where a search goes on from this object. -/
def edges (object : Object) : List Value := object.scope.toList ++ object.parentValues

def isActivation (object : Object) : Bool :=
  match object.payload with
  | .activation _ => true
  | _ => false

/-- The object with its shape told apart from all others. -/
def stamp (object : Object) (id : ShapeId) (version : Nat) : Object :=
  { object with shape := { object.shape with id, version } }

def setSlot (object : Object) (index : Nat) (value : Value) : Object :=
  { object with slotValues := object.slotValues.set index value }

def addSlot (object : Object) (name : String) (value : Value) : Object :=
  match object.shape.slots.index? name with
  | some index => object.setSlot index value
  | none =>
    { object with
      shape := { object.shape with slots := object.shape.slots.push name }
      slotValues := object.slotValues ++ [value] }

def insertSlot (object : Object) (position : Int) (name : String) (value : Value) : Object :=
  if object.shape.slots.contains name then object.addSlot name value
  else
    { object with
      shape := { object.shape with slots := object.shape.slots.insertAt position name }
      slotValues := object.slotValues ++ [value] }

def eraseSlot (object : Object) (name : String) : Object :=
  match object.shape.slots.index? name with
  | some index =>
    { object with
      shape := { object.shape with slots := object.shape.slots.erase name }
      slotValues := object.slotValues.eraseIdx index }
  | none => object

def addParent (object : Object) (name : String) (value : Value) : Object :=
  match object.shape.parents.index? name with
  | some index => { object with parentValues := object.parentValues.set index value }
  | none =>
    { object with
      shape := { object.shape with parents := object.shape.parents.push name }
      parentValues := object.parentValues ++ [value] }

def eraseParent (object : Object) (name : String) : Object :=
  match object.shape.parents.index? name with
  | some index =>
    { object with
      shape := { object.shape with parents := object.shape.parents.erase name }
      parentValues := object.parentValues.eraseIdx index }
  | none => object

end Object

end ProtoVm
