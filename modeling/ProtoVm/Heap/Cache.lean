import ProtoVm.Heap

/-!
# Remembered searches

The end of a search is kept with the shape of the object in which it began.
-/

namespace ProtoVm

/-- The object lives and has not been edited since. -/
def Checkpoint.isValid (heap : Heap) (checkpoint : Checkpoint) : Bool :=
  heap.isLive checkpoint.object && heap.versionOf checkpoint.object == checkpoint.version

/-- Objects with a common shape may still have different parents, so these are compared too. -/
def CachedSlot.isValidFor (heap : Heap) (start : Object) (entry : CachedSlot) : Bool :=
  entry.scope == start.scope && entry.parents == start.parentValues && heap.isLive entry.holder
    && entry.checkpoints.all (·.isValid heap)

namespace Heap

def cached? (heap : Heap) (shape : ShapeId) (name : String) : Option CachedSlot :=
  heap.cache.lookup (shape, name)

def remember (heap : Heap) (shape : ShapeId) (name : String) (entry : CachedSlot) : Heap :=
  { heap with cache := ((shape, name), entry) :: heap.cache.filter (·.1 != (shape, name)) }

/-- For how many names the end of a search is kept with a shape. -/
def cachedNames (heap : Heap) (shape : ShapeId) : Nat := heap.cache.countP (·.1.1 == shape)

end Heap

end ProtoVm
