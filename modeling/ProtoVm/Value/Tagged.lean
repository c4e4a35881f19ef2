import ProtoVm.Value.Signed

/-!
# Packing ids

An id is packed by shifts as well. The generation goes above the 32 bits of the index, and both go above the tag.
-/

namespace ProtoVm

/-- Shifted past the tag, whether or not it fits. -/
def Fixnum.tagged (n : Int64) : UInt64 := n.toUInt64 <<< 1

namespace ObjectId

/-- The ids that fit in a word beside the tag. -/
def Fits (id : ObjectId) : Prop := id.index < UInt32.size ∧ id.generation ≤ maxGeneration

instance (id : ObjectId) : Decidable id.Fits := inferInstanceAs (Decidable (_ ∧ _))

def tagged (id : ObjectId) : UInt64 := (UInt64.ofNat id.generation <<< 32 ||| UInt64.ofNat id.index) <<< 1 ||| 1

/-- The lower half of what is above the tag is the index, the upper half the generation. -/
def untagged? (w : UInt64) : Option ObjectId :=
  if w &&& 1 = 0 then none else some ⟨(w >>> 1).toUInt32.toNat, (w >>> 1 >>> 32).toUInt32.toNat⟩

end ObjectId

/-- The values that words stand for. -/
def Value.Fits : Value → Prop
  | fixnum _ => True
  | ref id => id.Fits

end ProtoVm
