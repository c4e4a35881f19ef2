import ProtoVm.Heap.Edit
import ProtoVm.Heap.Make

/-!
# Root objects

The objects that the machine itself refers to. All processes have them in common.
-/

namespace ProtoVm

structure Roots where
  nil : ObjectId
  trueObject : ObjectId
  falseObject : ObjectId
  /-- A slot named `name:` that holds this object assigns to the slot `name`. -/
  assignment : ObjectId
  fixnumTraits : ObjectId
  floatTraits : ObjectId
  stringTraits : ObjectId
  floatPrototype : ObjectId
  stringPrototype : ObjectId
  /-- Offers the natives that control a process. -/
  interpreter : ObjectId
  primitives : ObjectId
  /-- The receiver of a program's outermost code. -/
  lobby : ObjectId
deriving DecidableEq, Repr

namespace Roots

open Heap

/-- Adds one object for each native as a slot of `target`. -/
def install (target : ObjectId) (natives : List Native) : HeapM Unit :=
  natives.forM fun native => do
    let object ← newObjectWith (.native native)
    modify (·.addSlot target native.selector (.ref object))

def newPrototype (traits : ObjectId) (payload : Payload) : HeapM ObjectId := do
  let prototype ← newWithPayload payload
  modify (·.addParent prototype "traits" (.ref traits))
  return prototype

/-- Fills an empty heap. -/
def create : HeapM Roots := do
  let nil ← newObject
  let trueObject ← newObject
  let falseObject ← newObject
  let assignment ← newObjectWith .assignment
  let fixnumTraits ← newObject
  let floatTraits ← newObject
  let stringTraits ← newObject
  let floatPrototype ← newPrototype floatTraits (.float 0)
  let stringPrototype ← newPrototype stringTraits (.text "")
  let interpreter ← newObject
  let primitives ← newObject
  modify (·.addSlot primitives "interpreter" (.ref interpreter))
  modify (·.addSlot primitives "nil" (.ref nil))
  modify (·.addSlot primitives "true" (.ref trueObject))
  modify (·.addSlot primitives "false" (.ref falseObject))
  let lobby ← newObject
  modify (·.addSlot lobby "primitives" (.ref primitives))
  install fixnumTraits NativeGroup.fixnum.natives
  install floatTraits NativeGroup.float.natives
  install stringTraits NativeGroup.string.natives
  install interpreter NativeGroup.control.natives
  install nil NativeGroup.singleton.natives
  install trueObject NativeGroup.singleton.natives
  install falseObject NativeGroup.singleton.natives
  return {
    nil, trueObject, falseObject, assignment, fixnumTraits, floatTraits, stringTraits,
    floatPrototype, stringPrototype, interpreter, primitives, lobby }

def boolean (roots : Roots) (b : Bool) : Value :=
  .ref (if b then roots.trueObject else roots.falseObject)

def newString (roots : Roots) (s : String) : HeapM Value := do
  return .ref (← cloneWithPayload roots.stringPrototype (.text s))

def newFloat (roots : Roots) (x : Float) : HeapM Value := do
  return .ref (← cloneWithPayload roots.floatPrototype (.float x))

/-- The one object that stands for the text `s` in programs. -/
def intern (roots : Roots) (s : String) : HeapM Value := do
  match (← get).strings.lookup s with
  | some id => return .ref id
  | none =>
    let id ← cloneWithPayload roots.stringPrototype (.text s)
    modify fun heap => { heap with strings := (s, id) :: heap.strings }
    return .ref id

/-- The object in which a search begins for a message to `value`; integers have theirs in common. -/
def startOf (roots : Roots) (value : Value) : ObjectId := value.toId?.getD roots.fixnumTraits

end Roots

end ProtoVm
