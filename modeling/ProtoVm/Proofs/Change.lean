import Mathlib.Logic.Function.Basic
import Mathlib.Logic.Relation
import ProtoVm.Lookup
import ProtoVm.Proofs.Arena

/-!
# How a heap changes

Everything that happens to a heap is one of a few changes. Each of them keeps the heap coherent, and
none of them alters the structure of an object without giving it a later version.
-/

namespace ProtoVm

def Payload.isToken : Payload → Bool
  | .token .. => true
  | _ => false

namespace Object

/-! ## Structural edits of one object -/

/-- `object'` is `object` but for its slots and parents, and every value new in these is in `extra`. -/
structure Edited (extra : List Value) (object object' : Object) : Prop where
  scope_eq : object'.scope = object.scope
  payload_eq : object'.payload = object.payload
  behavior_eq : object'.shape.behavior = object.shape.behavior
  mem_slots : ∀ value ∈ object'.slotValues, value ∈ object.slotValues ∨ value ∈ extra
  mem_parents : ∀ value ∈ object'.parentValues, value ∈ object.parentValues ∨ value ∈ extra

theorem Edited.refl (extra : List Value) (object : Object) : Edited extra object object :=
  ⟨rfl, rfl, rfl, fun _ => .inl, fun _ => .inl⟩

theorem mem_set_or {values : List Value} {index : Nat} {new value : Value}
    (h : value ∈ values.set index new) : value ∈ values ∨ value ∈ [new] := by
  rcases List.mem_or_eq_of_mem_set h with h | rfl
  · exact .inl h
  · exact .inr List.mem_cons_self

theorem addSlot_edited (object : Object) (name : String) (value : Value) :
    Edited [value] object (object.addSlot name value) := by
  unfold addSlot
  split
  · exact ⟨rfl, rfl, rfl, fun _ => mem_set_or, fun _ => .inl⟩
  · exact ⟨rfl, rfl, rfl, fun _ => List.mem_append.1, fun _ => .inl⟩

theorem insertSlot_edited (object : Object) (position : Int) (name : String) (value : Value) :
    Edited [value] object (object.insertSlot position name value) := by
  unfold insertSlot
  split
  · exact object.addSlot_edited name value
  · exact ⟨rfl, rfl, rfl, fun _ => List.mem_append.1, fun _ => .inl⟩

theorem eraseSlot_edited (object : Object) (name : String) :
    Edited [] object (object.eraseSlot name) := by
  unfold eraseSlot
  split
  · exact ⟨rfl, rfl, rfl, fun _ h => .inl (List.mem_of_mem_eraseIdx h), fun _ => .inl⟩
  · exact .refl [] object

theorem addParent_edited (object : Object) (name : String) (value : Value) :
    Edited [value] object (object.addParent name value) := by
  unfold addParent
  split
  · exact ⟨rfl, rfl, rfl, fun _ => .inl, fun _ => mem_set_or⟩
  · exact ⟨rfl, rfl, rfl, fun _ => .inl, fun _ => List.mem_append.1⟩

theorem eraseParent_edited (object : Object) (name : String) :
    Edited [] object (object.eraseParent name) := by
  unfold eraseParent
  split
  · exact ⟨rfl, rfl, rfl, fun _ => .inl, fun _ h => .inl (List.mem_of_mem_eraseIdx h)⟩
  · exact .refl [] object

/-! ## Objects of the same structure -/

/-- The objects differ in the values of their slots at most. -/
structure Alike (object object' : Object) : Prop where
  shape_eq : object'.shape = object.shape
  length_eq : object'.slotValues.length = object.slotValues.length
  parents_eq : object'.parentValues = object.parentValues
  scope_eq : object'.scope = object.scope
  payload_eq : object'.payload = object.payload

theorem Alike.refl (object : Object) : Alike object object := ⟨rfl, rfl, rfl, rfl, rfl⟩

theorem setSlot_alike (object : Object) (index : Nat) (value : Value) :
    Alike object (object.setSlot index value) := ⟨rfl, by simp [setSlot], rfl, rfl, rfl⟩

theorem Alike.edges_eq {object object' : Object} (h : Alike object object') :
    object'.edges = object.edges := by
  unfold edges
  rw [h.scope_eq, h.parents_eq]

/-- Which names an object has depends on its layout and on how many values it stores. -/
theorem isSome_slot?_congr {object object' : Object}
    (hslots : object'.shape.slots = object.shape.slots)
    (hlength : object'.slotValues.length = object.slotValues.length) (name : String) :
    (object'.slot? name).isSome = (object.slot? name).isSome := by
  unfold slot?
  rw [hslots]
  cases object.shape.slots.index? name with
  | none => rfl
  | some index =>
    rw [Option.bind_some, Option.bind_some, Bool.eq_iff_iff, isSome_getElem?, isSome_getElem?,
      hlength]

/-! ## Shapes in a catalogue -/

/-- The layout and the number of values that each shape stands for. -/
abbrev Catalogue := ShapeId → Layout × Nat

/-- The object, and the bindings of its calls, are as the catalogue says. -/
structure Fits (catalogue : Catalogue) (object : Object) : Prop where
  own : catalogue object.shape.id = (object.shape.slots, object.slotValues.length)
  bindings : ∀ method, object.shape.method? = some method →
    catalogue method.bindings = (method.bindingLayout, method.bindingLayout.length)

/-- The object mentions shapes with numbers below `bound` only. -/
structure Below (bound : ShapeId) (object : Object) : Prop where
  own : object.shape.id < bound
  bindings : ∀ method, object.shape.method? = some method → method.bindings < bound

/-- The object does not mention the shape. -/
structure Avoids (id : ShapeId) (object : Object) : Prop where
  own : object.shape.id ≠ id
  bindings : ∀ method, object.shape.method? = some method → method.bindings ≠ id

theorem Below.mono {bound bound' : ShapeId} {object : Object} (h : Below bound object)
    (hle : bound ≤ bound') : Below bound' object :=
  ⟨Nat.lt_of_lt_of_le h.own hle, fun method hm => Nat.lt_of_lt_of_le (h.bindings method hm) hle⟩

theorem Below.avoids {bound : ShapeId} {object : Object} (h : Below bound object) :
    Avoids bound object :=
  ⟨Nat.ne_of_lt h.own, fun method hm => Nat.ne_of_lt (h.bindings method hm)⟩

theorem Fits.update {catalogue : Catalogue} {object : Object} (h : Fits catalogue object)
    {id : ShapeId} (havoids : Avoids id object) (entry : Layout × Nat) :
    Fits (Function.update catalogue id entry) object := by
  refine ⟨?_, fun method hm => ?_⟩
  · rw [Function.update_of_ne havoids.own, h.own]
  · rw [Function.update_of_ne (havoids.bindings method hm), h.bindings method hm]

end Object

namespace Heap

/-! ## Coherent heaps -/

def IssuedValue (heap : Heap) (value : Value) : Prop := ∀ id, value.toId? = some id → heap.Issued id

/-- The object is in the heap, or it is one of the copies that somebody holds of objects in it. -/
def Knows (copies : List Object) (heap : Heap) (object : Object) : Prop :=
  (∃ id, heap.get? id = some object) ∨ object ∈ copies

theorem Knows.of_get? {copies : List Object} {heap : Heap} {id : ObjectId} {object : Object}
    (h : heap.get? id = some object) : heap.Knows copies object := .inl ⟨id, h⟩

/-- Versions and shape numbers are drawn in order, a shape number stands for one layout, and searches
lead only to objects that exist or existed. -/
structure Coherent (copies : List Object) (heap : Heap) : Prop where
  tidy : heap.Tidy
  nextShape_pos : 0 < heap.nextShape
  version_le : ∀ object, heap.Knows copies object → object.shape.version ≤ heap.version
  below : ∀ object, heap.Knows copies object → object.Below heap.nextShape
  catalogued : ∃ catalogue : Object.Catalogue, catalogue 0 = ([], 0) ∧
    ∀ object, heap.Knows copies object → object.Fits catalogue
  edges : ∀ id object, heap.get? id = some object → ∀ value ∈ object.edges, heap.IssuedValue value

theorem coherent_empty (limit : Nat) : (Heap.empty limit).Coherent [] := by
  have hget (id : ObjectId) (object : Object) : (Heap.empty limit).get? id ≠ some object := by
    simp [Heap.empty, get?]
  have hknows (object : Object) : ¬(Heap.empty limit).Knows [] object := by
    rintro (⟨id, h⟩ | h)
    · exact hget id object h
    · cases h
  refine ⟨⟨by simp [Heap.empty], by simp [Heap.empty], by simp [Heap.empty]⟩, by simp [Heap.empty],
    fun object h => absurd h (hknows object), fun object h => absurd h (hknows object),
    ⟨fun _ => ([], 0), rfl, fun object h => absurd h (hknows object)⟩, fun id object h => absurd h (hget id object)⟩

/-- Where the shape of a new object comes from. -/
inductive Shaped (copies : List Object) (heap : Heap) (object : Object) : Prop
  | empty (hid : object.shape.id = 0) (hslots : object.shape.slots = []) (hvalues : object.slotValues = [])
      (hversion : object.shape.version = 0) (hmethod : object.shape.method? = none)
  | shared (model : Object) (hknows : heap.Knows copies model)
      (hshape : object.shape = model.shape) (hlength : object.slotValues.length = model.slotValues.length)
  | binding (model : Object) (method : Method) (hknows : heap.Knows copies model)
      (hmodel : model.shape.method? = some method) (hid : object.shape.id = method.bindings)
      (hslots : object.shape.slots = method.bindingLayout)
      (hlength : object.slotValues.length = method.bindingLayout.length)
      (hversion : object.shape.version = 0) (hmethod : object.shape.method? = none)
  | own (hid : 0 < object.shape.id) (hversion : object.shape.version = 0)
      (hbelow : object.Below heap.nextShape)
      (hunused : ∀ other, heap.Knows copies other → other.Avoids object.shape.id)
      (hmethod : ∀ method, object.shape.method? = some method →
        (∃ other, heap.Knows copies other ∧ other.shape.method? = some method) ∨
          0 < method.bindings ∧ method.bindings ≠ object.shape.id ∧
            ∀ other, heap.Knows copies other → other.Avoids method.bindings)

/-- The object can be added to the heap. -/
structure Admits (copies : List Object) (heap : Heap) (object : Object) : Prop where
  shaped : heap.Shaped copies object
  edges : ∀ value ∈ object.edges, heap.IssuedValue value

/-- One change of a heap. -/
inductive Change (roots : Roots) (copies : List Object) (heap : Heap) : Heap → Prop
  | allocate {object : Object} {id : ObjectId} {heap' : Heap} (admits : heap.Admits copies object)
      (h : allocate object heap = .ok id heap') : Change roots copies heap heap'
  | release (id : ObjectId) (h : ∀ object, heap.get? id = some object → object.payload.isToken = false) :
      Change roots copies heap (heap.release id)
  | assign (id : ObjectId) (index : Nat) (value : Value) :
      Change roots copies heap (heap.update id (·.setSlot index value))
  | restructure (id : ObjectId) {extra : List Value} {edit : Object → Object}
      (edited : ∀ object : Object, object.Edited extra (edit object)) (issued : ∀ value ∈ extra, heap.IssuedValue value) :
      Change roots copies heap (heap.restructure id edit)
  | consult (start : ObjectId) (name : String) (hstart : heap.Issued start)
      (htraits : heap.Issued roots.fixnumTraits) : Change roots copies heap (heap.parentLookup roots start name).heap
  | drawShape : Change roots copies heap { heap with nextShape := heap.nextShape + 1 }
  | record (strings : List (String × ObjectId)) (templates : List (Site × ObjectId)) (nextUnit : Nat) :
      Change roots copies heap { heap with strings, templates, nextUnit }

/-- Any number of changes. -/
abbrev Evolves (roots : Roots) (copies : List Object) : Heap → Heap → Prop :=
  Relation.ReflTransGen (Change roots copies)

/-! ## What a change leaves as it was -/

/-- Every object of `heap` that is still there in `heap'` has kept its structure or has a version that
`heap` did not know, and an id of `heap` names nothing new. -/
structure Later (heap heap' : Heap) : Prop where
  issued : ∀ id, heap.Issued id → heap'.Issued id
  version_le : heap.version ≤ heap'.version
  alike : ∀ id object', heap.Issued id → heap'.get? id = some object' →
    ∃ object, heap.get? id = some object ∧
      (object.Alike object' ∨ heap.version < object'.shape.version)
  token : ∀ id object, heap.get? id = some object → object.payload.isToken = true →
    ∃ object', heap'.get? id = some object' ∧ object'.payload = object.payload

theorem Later.of_get?_eq {heap heap' : Heap} (hissued : ∀ id, heap.Issued id → heap'.Issued id)
    (hversion : heap.version ≤ heap'.version) (hget : ∀ id, heap'.get? id = heap.get? id) :
    heap.Later heap' := by
  refine ⟨hissued, hversion, fun id object' _ h => ?_, fun id object h _ => ?_⟩
  · rw [hget] at h
    exact ⟨object', h, .inl (.refl object')⟩
  · exact ⟨object, by rw [hget, h], rfl⟩

theorem Adds.later {heap heap' : Heap} {object : Object} {id : ObjectId}
    (h : heap.Adds object id heap') : heap.Later heap' := by
  refine ⟨h.issued, Nat.le_of_eq h.version_eq.symm, fun other object' hother hget => ?_,
    fun other found hget _ => ?_⟩
  · have hne : other ≠ id := by
      rintro rfl
      exact h.unissued hother
    rw [h.get?_of_ne other hne] at hget
    exact ⟨object', hget, .inl (.refl object')⟩
  · exact ⟨found, h.get?_of_some hget, rfl⟩

theorem later_release {heap : Heap} {id : ObjectId}
    (h : ∀ object, heap.get? id = some object → object.payload.isToken = false) :
    heap.Later (heap.release id) := by
  refine ⟨fun other hother => hother.release id, by simp, fun other object' _ hget => ?_,
    fun other object hget htoken => ?_⟩
  · rw [get?_release] at hget
    split at hget
    · cases hget
    · exact ⟨object', hget, .inl (.refl object')⟩
  · have hne : other ≠ id := by
      rintro rfl
      rw [h object hget] at htoken
      cases htoken
    exact ⟨object, by rw [get?_release, if_neg hne, hget], rfl⟩

@[simp] theorem version_update (heap : Heap) (id : ObjectId) (edit : Object → Object) :
    (heap.update id edit).version = heap.version := by
  unfold update
  split <;> rfl

@[simp] theorem nextShape_update (heap : Heap) (id : ObjectId) (edit : Object → Object) :
    (heap.update id edit).nextShape = heap.nextShape := by
  unfold update
  split <;> rfl

theorem later_assign (heap : Heap) (id : ObjectId) (index : Nat) (value : Value) :
    heap.Later (heap.update id (·.setSlot index value)) := by
  refine ⟨fun other hother => hother.update id _, by simp, fun other object' _ hget => ?_,
    fun other object hget _ => ?_⟩
  · rw [get?_update] at hget
    split at hget
    · rename_i heq
      subst heq
      obtain ⟨object, hobject, rfl⟩ := Option.map_eq_some_iff.1 hget
      exact ⟨object, hobject, .inl (object.setSlot_alike index value)⟩
    · exact ⟨object', hget, .inl (.refl object')⟩
  · rw [get?_update]
    by_cases heq : other = id
    · subst heq
      exact ⟨object.setSlot index value, by simp [hget], rfl⟩
    · exact ⟨object, by rw [if_neg heq, hget], rfl⟩

theorem get?_restructure (heap : Heap) (id other : ObjectId) (edit : Object → Object) :
    (heap.restructure id edit).get? other =
      if other = id then (heap.get? id).map fun object => (edit object).stamp heap.nextShape (heap.version + 1)
      else heap.get? other :=
  heap.get?_update id other fun object => (edit object).stamp heap.nextShape (heap.version + 1)

theorem Issued.restructure {heap : Heap} {id : ObjectId} (h : heap.Issued id) (target : ObjectId)
    (edit : Object → Object) : (heap.restructure target edit).Issued id :=
  h.update target fun object => (edit object).stamp heap.nextShape (heap.version + 1)

theorem Tidy.restructure {heap : Heap} (tidy : heap.Tidy) (id : ObjectId) (edit : Object → Object) :
    (heap.restructure id edit).Tidy := by
  have h := tidy.update id fun object => (edit object).stamp heap.nextShape (heap.version + 1)
  exact ⟨h.free_nodup, h.free_empty, h.size_le⟩

theorem later_restructure (heap : Heap) (id : ObjectId) {extra : List Value}
    {edit : Object → Object} (edited : ∀ object : Object, object.Edited extra (edit object)) :
    heap.Later (heap.restructure id edit) := by
  refine ⟨fun other hother => hother.restructure id edit, Nat.le_succ _, fun other object' _ hget => ?_,
    fun other object hget _ => ?_⟩
  · rw [get?_restructure] at hget
    split at hget
    · rename_i heq
      subst heq
      obtain ⟨object, hobject, rfl⟩ := Option.map_eq_some_iff.1 hget
      exact ⟨object, hobject, .inr (Nat.lt_succ_self heap.version)⟩
    · exact ⟨object', hget, .inl (.refl object')⟩
  · rw [get?_restructure]
    by_cases heq : other = id
    · subst heq
      exact ⟨(edit object).stamp heap.nextShape (heap.version + 1),
        by simp [hget], (edited object).payload_eq⟩
    · exact ⟨object, by rw [if_neg heq, hget], rfl⟩

/-- What a search that succeeds leaves behind for the next one. -/
def trace (heap : Heap) (roots : Roots) (start : ObjectId) (name : String) (holder : ObjectId) : CachedSlot where
  holder
  checkpoints := (heap.walk roots start (·.slot? name)).visited.map fun object => ⟨object, heap.versionOf object⟩
  scope := (heap.object start).scope
  parents := (heap.object start).parentValues

/-- A search changes nothing but what is remembered, and that only if it succeeds. -/
theorem parentLookup_heap (heap : Heap) (roots : Roots) (start : ObjectId) (name : String) :
    (heap.parentLookup roots start name).heap = heap ∨
      ∃ holder value, (heap.walk roots start (·.slot? name)).result = .found holder value ∧
        (heap.parentLookup roots start name).heap =
          heap.remember (heap.object start).shape.id name (heap.trace roots start name holder) := by
  unfold parentLookup
  simp only
  split
  · exact .inl rfl
  · split
    · rename_i holder value hresult
      exact .inr ⟨holder, value, hresult, rfl⟩
    · exact .inl rfl

theorem later_consult (heap : Heap) (roots : Roots) (start : ObjectId) (name : String) :
    heap.Later (heap.parentLookup roots start name).heap := by
  rcases heap.parentLookup_heap roots start name with h | ⟨holder, value, -, h⟩ <;> rw [h]
  · exact .of_get?_eq (fun _ => id) (Nat.le_refl _) fun _ => rfl
  · exact .of_get?_eq (fun _ => id) (Nat.le_refl _) fun _ => rfl

theorem Change.later {roots : Roots} {copies : List Object} {heap heap' : Heap}
    (hc : heap.Coherent copies) (h : Change roots copies heap heap') : heap.Later heap' := by
  cases h with
  | allocate admits h => exact (allocate_adds hc.tidy h).later
  | release id h => exact later_release h
  | assign id index value => exact later_assign heap id index value
  | restructure id edited issued => exact later_restructure heap id edited
  | consult start name hstart htraits => exact later_consult heap roots start name
  | drawShape => exact .of_get?_eq (fun _ => id) (Nat.le_refl _) fun _ => rfl
  | record strings templates nextUnit =>
    exact .of_get?_eq (fun _ => id) (Nat.le_refl _) fun _ => rfl

/-! ## Changes keep a heap coherent -/

/-- Objects that all come from `heap` are as coherent in `heap'`. -/
theorem Coherent.of_get? {copies : List Object} {heap heap' : Heap} (hc : heap.Coherent copies)
    (tidy : heap'.Tidy) (hissued : ∀ id, heap.Issued id → heap'.Issued id)
    (hversion : heap.version ≤ heap'.version) (hshape : heap.nextShape ≤ heap'.nextShape)
    (hget : ∀ id object', heap'.get? id = some object' → ∃ object, heap.get? id = some object ∧
      object.Alike object') : heap'.Coherent copies := by
  obtain ⟨catalogue, hzero, hfits⟩ := hc.catalogued
  have hknows {object' : Object} (h : heap'.Knows copies object') :
      ∃ object, heap.Knows copies object ∧ object.Alike object' := by
    rcases h with ⟨id, h⟩ | h
    · obtain ⟨object, hobject, halike⟩ := hget id object' h
      exact ⟨object, .of_get? hobject, halike⟩
    · exact ⟨object', .inr h, .refl object'⟩
  refine ⟨tidy, Nat.lt_of_lt_of_le hc.nextShape_pos hshape, fun object' h => ?_, fun object' h => ?_,
    ⟨catalogue, hzero, fun object' h => ?_⟩, fun id object' h => ?_⟩
  · obtain ⟨object, hobject, halike⟩ := hknows h
    rw [halike.shape_eq]
    exact Nat.le_trans (hc.version_le object hobject) hversion
  · obtain ⟨object, hobject, halike⟩ := hknows h
    refine ⟨?_, ?_⟩ <;> rw [halike.shape_eq]
    · exact ((hc.below object hobject).mono hshape).own
    · exact ((hc.below object hobject).mono hshape).bindings
  · obtain ⟨object, hobject, halike⟩ := hknows h
    refine ⟨?_, ?_⟩ <;> rw [halike.shape_eq]
    · rw [halike.length_eq]
      exact (hfits object hobject).own
    · exact (hfits object hobject).bindings
  · obtain ⟨object, hobject, halike⟩ := hget id object' h
    intro value hvalue target htarget
    rw [halike.edges_eq] at hvalue
    exact hissued target (hc.edges id object hobject value hvalue target htarget)

theorem Shaped.version_le {copies : List Object} {heap : Heap} {object : Object}
    (h : heap.Shaped copies object) (hc : heap.Coherent copies) :
    object.shape.version ≤ heap.version := by
  cases h with
  | empty hid hslots hvalues hversion hmethod => exact hversion ▸ Nat.zero_le _
  | shared model hknows hshape hlength => exact hshape ▸ hc.version_le model hknows
  | binding model method hknows hmodel hid hslots hlength hversion hmethod =>
    exact hversion ▸ Nat.zero_le _
  | own hid hversion hbelow hunused hmethod => exact hversion ▸ Nat.zero_le _

theorem Shaped.below {copies : List Object} {heap : Heap} {object : Object}
    (h : heap.Shaped copies object) (hc : heap.Coherent copies) : object.Below heap.nextShape := by
  cases h with
  | empty hid hslots hvalues hversion hmethod =>
    exact ⟨hid ▸ hc.nextShape_pos, fun method hm => by rw [hmethod] at hm; cases hm⟩
  | shared model hknows hshape hlength =>
    have hbelow := hc.below model hknows
    exact ⟨hshape ▸ hbelow.own, hshape ▸ hbelow.bindings⟩
  | binding model method hknows hmodel hid hslots hlength hversion hmethod =>
    exact ⟨hid ▸ (hc.below model hknows).bindings method hmodel,
      fun m hm => by rw [hmethod] at hm; cases hm⟩
  | own hid hversion hbelow hunused hmethod => exact hbelow

/-- A catalogue can be extended so that it also has the new object. -/
theorem Shaped.catalogued {copies : List Object} {heap : Heap} {object : Object}
    (h : heap.Shaped copies object) {catalogue : Object.Catalogue} (hzero : catalogue 0 = ([], 0))
    (hfits : ∀ other, heap.Knows copies other → other.Fits catalogue) :
    ∃ catalogue' : Object.Catalogue, catalogue' 0 = ([], 0) ∧ object.Fits catalogue' ∧
      ∀ other, heap.Knows copies other → other.Fits catalogue' := by
  cases h with
  | empty hid hslots hvalues hversion hmethod =>
    refine ⟨catalogue, hzero, ⟨?_, fun method hm => by rw [hmethod] at hm; cases hm⟩, hfits⟩
    rw [hid, hzero, hslots, hvalues]
    rfl
  | shared model hknows hshape hlength =>
    have hmodel := hfits model hknows
    refine ⟨catalogue, hzero, ⟨?_, ?_⟩, hfits⟩
    · rw [hshape, hlength]
      exact hmodel.own
    · rw [hshape]
      exact hmodel.bindings
  | binding model method hknows hmodel hid hslots hlength hversion hmethod =>
    refine ⟨catalogue, hzero, ⟨?_, fun m hm => by rw [hmethod] at hm; cases hm⟩, hfits⟩
    rw [hid, hslots, hlength]
    exact (hfits model hknows).bindings method hmodel
  | own hid hversion hbelow hunused hmethod =>
    have hown (catalogue' : Object.Catalogue) (hfits' : ∀ other, heap.Knows copies other → other.Fits catalogue')
        (other : Object) (hknows : heap.Knows copies other) :
        other.Fits (Function.update catalogue' object.shape.id (object.shape.slots, object.slotValues.length)) :=
      (hfits' other hknows).update (hunused other hknows) _
    cases hm : object.shape.method? with
    | none =>
      refine ⟨Function.update catalogue object.shape.id (object.shape.slots, object.slotValues.length),
        ?_, ⟨Function.update_self .., fun m h => by rw [hm] at h; cases h⟩, hown catalogue hfits⟩
      rw [Function.update_of_ne (Nat.ne_of_lt hid), hzero]
    | some method =>
      rcases hmethod method hm with ⟨other, hknows, hother⟩ | ⟨hpos, hne, havoids⟩
      · refine ⟨Function.update catalogue object.shape.id (object.shape.slots, object.slotValues.length),
          ?_, ⟨Function.update_self .., fun m h => ?_⟩, hown catalogue hfits⟩
        · rw [Function.update_of_ne (Nat.ne_of_lt hid), hzero]
        · rw [hm] at h
          cases h
          rw [Function.update_of_ne ((hunused other hknows).bindings method hother)]
          exact (hfits other hknows).bindings method hother
      · refine ⟨Function.update
            (Function.update catalogue method.bindings (method.bindingLayout, method.bindingLayout.length))
            object.shape.id (object.shape.slots, object.slotValues.length),
          ?_, ⟨Function.update_self .., fun m h => ?_⟩, hown _ fun other hknows =>
            (hfits other hknows).update (havoids other hknows) _⟩
        · rw [Function.update_of_ne (Nat.ne_of_lt hid), Function.update_of_ne (Nat.ne_of_lt hpos),
            hzero]
        · rw [hm] at h
          cases h
          rw [Function.update_of_ne hne, Function.update_self]

theorem Coherent.adds {copies : List Object} {heap heap' : Heap} {object : Object} {id : ObjectId}
    (hc : heap.Coherent copies) (admits : heap.Admits copies object)
    (h : heap.Adds object id heap') : heap'.Coherent copies := by
  obtain ⟨catalogue, hzero, hfits⟩ := hc.catalogued
  obtain ⟨catalogue', hzero', hobject, hfits'⟩ := admits.shaped.catalogued hzero hfits
  have hcases {other : ObjectId} {found : Object} (hget : heap'.get? other = some found) :
      found = object ∨ heap.get? other = some found := by
    by_cases heq : other = id
    · rw [heq, h.get?_self] at hget
      exact .inl (Option.some.inj hget).symm
    · exact .inr (h.get?_of_ne other heq ▸ hget)
  have hknows {found : Object} (hfound : heap'.Knows copies found) : found = object ∨ heap.Knows copies found := by
    rcases hfound with ⟨other, hget⟩ | hcopy
    · exact (hcases hget).imp_right .of_get?
    · exact .inr (.inr hcopy)
  refine ⟨h.tidy, h.nextShape_eq ▸ hc.nextShape_pos, fun found hfound => ?_, fun found hfound => ?_,
    ⟨catalogue', hzero', fun found hfound => ?_⟩, fun other found hget => ?_⟩
  · rcases hknows hfound with rfl | hfound
    · exact h.version_eq ▸ admits.shaped.version_le hc
    · exact h.version_eq ▸ hc.version_le found hfound
  · rcases hknows hfound with rfl | hfound
    · exact h.nextShape_eq ▸ admits.shaped.below hc
    · exact h.nextShape_eq ▸ hc.below found hfound
  · rcases hknows hfound with rfl | hfound
    · exact hobject
    · exact hfits' found hfound
  · rcases hcases hget with rfl | hget
    · exact fun value hvalue target htarget => h.issued target
        (admits.edges value hvalue target htarget)
    · exact fun value hvalue target htarget =>
        h.issued target (hc.edges other found hget value hvalue target htarget)

theorem Coherent.restructure {copies : List Object} {heap : Heap} (hc : heap.Coherent copies)
    (id : ObjectId) {extra : List Value} {edit : Object → Object}
    (edited : ∀ object : Object, object.Edited extra (edit object))
    (issued : ∀ value ∈ extra, heap.IssuedValue value) :
    (heap.restructure id edit).Coherent copies := by
  obtain ⟨catalogue, hzero, hfits⟩ := hc.catalogued
  have hcases {other : ObjectId} {found : Object} (hget : (heap.restructure id edit).get? other = some found) :
      (∃ object, heap.get? id = some object ∧
        found = (edit object).stamp heap.nextShape (heap.version + 1)) ∨ heap.get? other = some found := by
    rw [get?_restructure] at hget
    split at hget
    · obtain ⟨object, hobject, rfl⟩ := Option.map_eq_some_iff.1 hget
      exact .inl ⟨object, hobject, rfl⟩
    · exact .inr hget
  have hknows {found : Object} (hfound : (heap.restructure id edit).Knows copies found) :
      (∃ object, heap.get? id = some object ∧
        found = (edit object).stamp heap.nextShape (heap.version + 1)) ∨ heap.Knows copies found := by
    rcases hfound with ⟨other, hget⟩ | hcopy
    · exact (hcases hget).imp_right .of_get?
    · exact .inr (.inr hcopy)
  have hmethod (object : Object) (version : Nat) :
      ((edit object).stamp heap.nextShape version).shape.method? = object.shape.method? := by
    simp only [Shape.method?, Object.stamp, (edited object).behavior_eq]
  -- the edited object, if there is one, decides what the new shape stands for
  let entry : Layout × Nat :=
    (heap.get? id).elim ([], 0) fun object => ((edit object).shape.slots, (edit object).slotValues.length)
  refine ⟨hc.tidy.restructure id edit, Nat.succ_pos _, fun found hfound => ?_, fun found hfound => ?_,
    ⟨Function.update catalogue heap.nextShape entry, ?_, fun found hfound => ?_⟩, fun other found hget => ?_⟩
  · rcases hknows hfound with ⟨object, hobject, rfl⟩ | hfound
    · exact Nat.le_refl _
    · exact Nat.le_succ_of_le (hc.version_le found hfound)
  · rcases hknows hfound with ⟨object, hobject, rfl⟩ | hfound
    · refine ⟨Nat.lt_succ_self _, fun method hm => ?_⟩
      rw [hmethod] at hm
      exact Nat.lt_succ_of_lt ((hc.below object (.of_get? hobject)).bindings method hm)
    · exact (hc.below found hfound).mono (Nat.le_succ _)
  · rw [Function.update_of_ne (Nat.ne_of_lt hc.nextShape_pos), hzero]
  · rcases hknows hfound with ⟨object, hobject, rfl⟩ | hfound
    · refine ⟨?_, fun method hm => ?_⟩
      · simp only [Object.stamp, Function.update_self, entry, hobject, Option.elim_some]
      · rw [hmethod] at hm
        rw [Function.update_of_ne (Nat.ne_of_lt ((hc.below object (.of_get? hobject)).bindings method hm))]
        exact (hfits object (.of_get? hobject)).bindings method hm
    · exact (hfits found hfound).update (hc.below found hfound).avoids entry
  · rcases hcases hget with ⟨object, hobject, rfl⟩ | hget
    · intro value hvalue target htarget
      apply Issued.restructure
      simp only [Object.edges, Object.stamp, (edited object).scope_eq, List.mem_append] at hvalue
      rcases hvalue with hvalue | hvalue
      · exact hc.edges id object hobject value (List.mem_append_left _ hvalue) target htarget
      · rcases (edited object).mem_parents value hvalue with hvalue | hvalue
        · exact hc.edges id object hobject value (List.mem_append_right _ hvalue) target htarget
        · exact issued value hvalue target htarget
    · exact fun value hvalue target htarget =>
        (hc.edges other found hget value hvalue target htarget).restructure id edit

/-- A copy of an object in the heap can be taken at any time. -/
theorem Coherent.copy {copies : List Object} {heap : Heap} (hc : heap.Coherent copies)
    {id : ObjectId} {object : Object} (hget : heap.get? id = some object) :
    heap.Coherent (object :: copies) := by
  have hknows {other : Object} (h : heap.Knows (object :: copies) other) : heap.Knows copies other := by
    rcases h with h | h
    · exact .inl h
    · rcases List.mem_cons.1 h with rfl | h
      · exact .of_get? hget
      · exact .inr h
  obtain ⟨catalogue, hzero, hfits⟩ := hc.catalogued
  exact ⟨hc.tidy, hc.nextShape_pos, fun other h => hc.version_le other (hknows h),
    fun other h => hc.below other (hknows h), ⟨catalogue, hzero, fun other h => hfits other (hknows h)⟩, hc.edges⟩

theorem Coherent.change {roots : Roots} {copies : List Object} {heap heap' : Heap}
    (hc : heap.Coherent copies) (h : Change roots copies heap heap') : heap'.Coherent copies := by
  cases h with
  | allocate admits h => exact hc.adds admits (allocate_adds hc.tidy h)
  | release id h =>
    refine hc.of_get? (hc.tidy.release id) (fun other hother => hother.release id) (by simp)
      (by simp) ?_
    intro other object' hget
    rw [get?_release] at hget
    split at hget
    · cases hget
    · exact ⟨object', hget, .refl object'⟩
  | assign id index value =>
    refine hc.of_get? (hc.tidy.update id _) (fun other hother => hother.update id _) (by simp)
      (by simp) ?_
    intro other object' hget
    rw [get?_update] at hget
    split at hget
    · rename_i heq
      subst heq
      obtain ⟨object, hobject, rfl⟩ := Option.map_eq_some_iff.1 hget
      exact ⟨object, hobject, object.setSlot_alike index value⟩
    · exact ⟨object', hget, .refl object'⟩
  | restructure id edited issued => exact hc.restructure id edited issued
  | consult start name hstart htraits =>
    rcases heap.parentLookup_heap roots start name with h | ⟨holder, value, -, h⟩ <;> rw [h]
    · exact hc
    · exact ⟨⟨hc.tidy.free_nodup, hc.tidy.free_empty, hc.tidy.size_le⟩, hc.nextShape_pos, hc.version_le,
        hc.below, hc.catalogued, hc.edges⟩
  | drawShape =>
    exact hc.of_get? ⟨hc.tidy.free_nodup, hc.tidy.free_empty, hc.tidy.size_le⟩ (fun _ => id) (Nat.le_refl _)
      (Nat.le_succ _) fun id object' hget => ⟨object', hget, .refl object'⟩
  | record strings templates nextUnit =>
    exact hc.of_get? ⟨hc.tidy.free_nodup, hc.tidy.free_empty, hc.tidy.size_le⟩ (fun _ => id) (Nat.le_refl _)
      (Nat.le_refl _) fun id object' hget => ⟨object', hget, .refl object'⟩

theorem Coherent.evolves {roots : Roots} {copies : List Object} {heap heap' : Heap}
    (hc : heap.Coherent copies) (h : Evolves roots copies heap heap') : heap'.Coherent copies := by
  induction h with
  | refl => exact hc
  | tail _ hstep ih => exact ih.change hstep

/-- A token outlives every change. -/
theorem Evolves.token {roots : Roots} {copies : List Object} {heap heap' : Heap}
    (hc : heap.Coherent copies) (h : Evolves roots copies heap heap') {id : ObjectId}
    {object : Object} (hget : heap.get? id = some object) (htoken : object.payload.isToken = true) :
    ∃ object', heap'.get? id = some object' ∧ object'.payload = object.payload := by
  induction h with
  | refl => exact ⟨object, hget, rfl⟩
  | tail hrest hstep ih =>
    obtain ⟨middle, hmiddle, hpayload⟩ := ih
    obtain ⟨object', hobject', hpayload'⟩ :=
      (hstep.later (hc.evolves hrest)).token id middle hmiddle (hpayload ▸ htoken)
    exact ⟨object', hobject', hpayload'.trans hpayload⟩

@[simp] theorem limit_update (heap : Heap) (id : ObjectId) (edit : Object → Object) :
    (heap.update id edit).limit = heap.limit := by
  unfold update
  split <;> rfl

theorem Change.limit_eq {roots : Roots} {copies : List Object} {heap heap' : Heap}
    (hc : heap.Coherent copies) (h : Change roots copies heap heap') :
    heap'.limit = heap.limit := by
  cases h with
  | allocate admits h => exact (allocate_adds hc.tidy h).limit_eq
  | release id h => exact limit_release heap id
  | assign id index value => exact limit_update heap id _
  | restructure id edited issued => exact limit_update heap id _
  | consult start name hstart htraits =>
    rcases heap.parentLookup_heap roots start name with h | ⟨holder, value, -, h⟩ <;> rw [h]
    rfl
  | drawShape => rfl
  | record strings templates nextUnit => rfl

theorem Evolves.limit_eq {roots : Roots} {copies : List Object} {heap heap' : Heap}
    (hc : heap.Coherent copies) (h : Evolves roots copies heap heap') :
    heap'.limit = heap.limit := by
  induction h with
  | refl => rfl
  | tail hrest hstep ih => exact (hstep.limit_eq (hc.evolves hrest)).trans ih

end Heap

end ProtoVm
