import ProtoVm.Proofs.Session

/-!
# Acts on the heap

Whatever an operation does to the heap, it does by a few acts: it makes an object, edits one or assigns to
one of its slots, or writes down something beside the objects. None of them takes an object away that was
there before.
-/

namespace ProtoVm

/-- The structural edits of an object. -/
inductive Edit
  | addSlot (name : String) (value : Value)
  | insertSlot (position : Int) (name : String) (value : Value)
  | eraseSlot (name : String)
  | addParent (name : String) (value : Value)
  | eraseParent (name : String)

def Edit.apply : Edit → Object → Object
  | addSlot name value, object => object.addSlot name value
  | insertSlot position name value, object => object.insertSlot position name value
  | eraseSlot name, object => object.eraseSlot name
  | addParent name value, object => object.addParent name value
  | eraseParent name, object => object.eraseParent name

/-- The values that an edit brings in. -/
def Edit.brought : Edit → List Value
  | addSlot _ value | insertSlot _ _ value | addParent _ value => [value]
  | eraseSlot _ | eraseParent _ => []

theorem Edit.apply_edited (edit : Edit) (object : Object) : object.Edited edit.brought (edit.apply object) := by
  cases edit with
  | addSlot name value => exact object.addSlot_edited name value
  | insertSlot position name value => exact object.insertSlot_edited position name value
  | eraseSlot name => exact object.eraseSlot_edited name
  | addParent name value => exact object.addParent_edited name value
  | eraseParent name => exact object.eraseParent_edited name

/-- The faults that operations on the heap have: no handler answers them, and they are not about missing operands. -/
def Fault.isOperational : Fault → Bool
  | typeMismatch .. | nativeFailed .. | integerOverflow _ | heapExhausted _ => true
  | _ => false

theorem Fault.isRecoverable_of_isOperational {fault : Fault} (h : fault.isOperational = true) :
    fault.isRecoverable = false := by
  cases fault <;> simp [isOperational, isRecoverable] at h ⊢

theorem Fault.ne_stackUnderflow_of_isOperational {fault : Fault} (h : fault.isOperational = true) :
    fault ≠ .stackUnderflow := by
  rintro rfl
  cases h

namespace Heap

/-- The objects that operations make. A method among them that is not copied runs a body of `bodies`. -/
inductive Makes (bodies : Body → Prop) (copies : List Object) (heap : Heap) : Object → Prop
  | plain (payload : Payload) : Makes bodies copies heap { payload }
  | own (id : ShapeId) {behavior : Behavior} (h : ∀ method, behavior = .method method → bodies method.body) :
      Makes bodies copies heap { shape := { id, behavior } }
  | binding (method : Method) (args : List Value) (nil scope : Value) :
      Makes bodies copies heap
        { shape := { id := method.bindings, slots := method.bindingLayout }
          slotValues := method.bindingValues args nil
          scope := some scope }
  | copy (id : ObjectId) (scope : Option Value) (payload : Payload) :
      Makes bodies copies heap { heap.object id with scope, payload }
  | held {object : Object} (h : object ∈ copies) : Makes bodies copies heap object

/-- One act. An object that is withdrawn was made in the same act. -/
inductive Act (bodies : Body → Prop) (copies : List Object) (heap : Heap) : Heap → Prop
  | make {object : Object} {id : ObjectId} {heap' : Heap} (h : heap.Makes bodies copies object)
      (hok : allocate object heap = .ok id heap') : Act bodies copies heap heap'
  | withdraw {object : Object} {id : ObjectId} {heap' : Heap} (hok : allocate object heap = .ok id heap') :
      Act bodies copies heap (heap'.release id)
  | edit (id : ObjectId) (edit : Edit) : Act bodies copies heap (heap.restructure id edit.apply)
  | assign (id : ObjectId) (index : Nat) (value : Value) :
      Act bodies copies heap (heap.update id (·.setSlot index value))
  | aside {heap' : Heap} (hcells : heap'.cells = heap.cells) (hfree : heap'.free = heap.free)
      (hlimit : heap'.limit = heap.limit) (hunit : heap.nextUnit ≤ heap'.nextUnit) : Act bodies copies heap heap'

abbrev Acts (bodies : Body → Prop) (copies : List Object) : Heap → Heap → Prop :=
  Relation.ReflTransGen (Act bodies copies)

variable {bodies bodies' : Body → Prop} {copies : List Object} {heap heap' : Heap} {id : ObjectId}

theorem Act.mono (h : Act bodies copies heap heap') (hbodies : ∀ body, bodies body → bodies' body) :
    Act bodies' copies heap heap' := by
  cases h with
  | make h hok =>
    refine .make ?_ hok
    cases h with
    | plain payload => exact .plain payload
    | own id h => exact .own id fun method hm => hbodies _ (h method hm)
    | binding method args nil scope => exact .binding method args nil scope
    | copy id scope payload => exact .copy id scope payload
    | held h => exact .held h
  | withdraw hok => exact .withdraw hok
  | edit id edit => exact .edit id edit
  | assign id index value => exact .assign id index value
  | aside hcells hfree hlimit hunit => exact .aside hcells hfree hlimit hunit

theorem Acts.mono (h : Acts bodies copies heap heap') (hbodies : ∀ body, bodies body → bodies' body) :
    Acts bodies' copies heap heap' := by
  induction h with
  | refl => exact .refl
  | tail _ h ih => exact ih.tail (h.mono hbodies)

/-! ## Ids -/

theorem get?_of_cells (hcells : heap'.cells = heap.cells) (id : ObjectId) : heap'.get? id = heap.get? id := by
  unfold get?
  rw [hcells]

/-- An object that is withdrawn leaves every id as it was. -/
theorem get?_withdraw {object : Object} (tidy : heap.Tidy) (hok : allocate object heap = .ok id heap')
    (other : ObjectId) : (heap'.release id).get? other = heap.get? other := by
  have hadds := allocate_adds tidy hok
  rw [get?_release]
  split
  · rename_i heq
    rw [heq, hadds.get?_eq_none]
  · exact hadds.get?_of_ne other ‹_›

theorem isLive_of_get? {heap heap' : Heap} {id : ObjectId} (h : heap'.get? id = heap.get? id) :
    heap'.isLive id = heap.isLive id := by
  unfold isLive
  rw [h]

theorem isLive_update (heap : Heap) (target id : ObjectId) (edit : Object → Object) :
    (heap.update target edit).isLive id = heap.isLive id := by
  unfold isLive
  rw [get?_update]
  split
  · rename_i heq
    rw [Option.isSome_map, heq]
  · rfl

theorem Act.tidy (h : Act bodies copies heap heap') (tidy : heap.Tidy) : heap'.Tidy := by
  cases h with
  | make h hok => exact (allocate_adds tidy hok).tidy
  | withdraw hok => exact (allocate_adds tidy hok).tidy.release _
  | edit id edit => exact tidy.restructure id edit.apply
  | assign id index value => exact tidy.update id _
  | aside hcells hfree hlimit hunit =>
    refine ⟨hfree ▸ tidy.free_nodup, fun index hindex => ?_, ?_⟩
    · rw [hcells]
      exact tidy.free_empty index (hfree ▸ hindex)
    · rw [hcells, hlimit]
      exact tidy.size_le

theorem Act.issued (h : Act bodies copies heap heap') (tidy : heap.Tidy) (hid : heap.Issued id) :
    heap'.Issued id := by
  cases h with
  | make h hok => exact (allocate_adds tidy hok).issued id hid
  | withdraw hok => exact ((allocate_adds tidy hok).issued id hid).release _
  | edit target edit => exact hid.restructure target edit.apply
  | assign target index value => exact hid.update target _
  | aside hcells hfree hlimit hunit =>
    unfold Issued
    rw [hcells]
    exact hid

/-- An act neither takes an object away nor brings one back. -/
theorem Act.isLive_eq (h : Act bodies copies heap heap') (tidy : heap.Tidy) (hid : heap.Issued id) :
    heap'.isLive id = heap.isLive id := by
  cases h with
  | make h hok =>
    have hadds := allocate_adds tidy hok
    refine isLive_of_get? (hadds.get?_of_ne id ?_)
    rintro rfl
    exact hadds.unissued hid
  | withdraw hok => exact isLive_of_get? (get?_withdraw tidy hok id)
  | edit target edit => exact isLive_update heap target id _
  | assign target index value => exact isLive_update heap target id _
  | aside hcells hfree hlimit hunit => exact isLive_of_get? (get?_of_cells hcells id)

theorem Acts.tidy (h : Acts bodies copies heap heap') (tidy : heap.Tidy) : heap'.Tidy := by
  induction h with
  | refl => exact tidy
  | tail _ h ih => exact h.tidy ih

theorem Acts.issued (h : Acts bodies copies heap heap') (tidy : heap.Tidy) (hid : heap.Issued id) :
    heap'.Issued id := by
  induction h with
  | refl => exact hid
  | tail hrest h ih => exact h.issued (Acts.tidy hrest tidy) ih

theorem Acts.isLive_eq (h : Acts bodies copies heap heap') (tidy : heap.Tidy) (hid : heap.Issued id) :
    heap'.isLive id = heap.isLive id := by
  induction h with
  | refl => rfl
  | tail hrest h ih =>
    exact (h.isLive_eq (Acts.tidy hrest tidy) (Acts.issued hrest tidy hid)).trans ih

end Heap

end ProtoVm
