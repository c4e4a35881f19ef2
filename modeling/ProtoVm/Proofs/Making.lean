import ProtoVm.Machine.Step
import ProtoVm.Proofs.Custody
import ProtoVm.Proofs.Effects

/-!
# Making objects

Every operation on the heap that the machine uses keeps the heap sound, whether it ends with a result or
fails, and what it makes may be stored.
-/

namespace ProtoVm.Heap

variable {policy : Policy} {roots : Roots} {heap heap' : Heap} {frames : List Frame}

/-- The operation keeps the heap sound and a result of it has `P`. -/
def Keeps {α : Type} (policy : Policy) (roots : Roots) (frames : List Frame) (x : HeapM α) (heap : Heap)
    (P : α → Heap → Prop) : Prop :=
  Ends x heap (fun a heap' => Follows policy roots heap frames heap' frames ∧ P a heap')
    fun _ heap' => Follows policy roots heap frames heap' frames

section

variable {α β : Type} {x : HeapM α} {P Q : α → Heap → Prop}

theorem Keeps.mono (h : Keeps policy roots frames x heap P)
    (himp : ∀ a heap', Follows policy roots heap frames heap' frames → P a heap' → Q a heap') :
    Keeps policy roots frames x heap Q :=
  Ends.mono h (fun a heap' h => ⟨h.1, himp a heap' h.1 h.2⟩) fun _ _ h => h

theorem Keeps.pure {a : α} (hs : heap.Sound policy roots frames) (h : P a heap) :
    Keeps policy roots frames (pure a) heap P := ⟨hs.follows_self, h⟩

theorem Keeps.throw {fault : Fault} (hs : heap.Sound policy roots frames) :
    Keeps policy roots frames (throw fault) heap P := hs.follows_self

theorem Keeps.bind {f : α → HeapM β} {Q : β → Heap → Prop} (h : Keeps policy roots frames x heap P)
    (hf : ∀ a heap', Follows policy roots heap frames heap' frames → P a heap' →
      Keeps policy roots frames (f a) heap' Q) : Keeps policy roots frames (x >>= f) heap Q := by
  unfold Keeps
  rw [ends_bind]
  refine Ends.mono h (fun a heap' ha => ?_) fun _ _ h => h
  exact Ends.mono (hf a heap' ha.1 ha.2) (fun b heap'' hb => ⟨ha.1.trans hb.1, hb.2⟩)
    fun _ _ hb => ha.1.trans hb

theorem Keeps.modify {edit : Heap → Heap} {P : PUnit → Heap → Prop}
    (h : Follows policy roots heap frames (edit heap) frames) (hp : P ⟨⟩ (edit heap)) :
    Keeps policy roots frames (modify edit) heap P := ⟨h, hp⟩

/-- Reading the heap changes nothing. -/
theorem Keeps.get {f : Heap → HeapM α} (h : Keeps policy roots frames (f heap) heap P) :
    Keeps policy roots frames (MonadState.get >>= f) heap P := h

end

theorem Sound.anchor_accepts (hs : heap.Sound policy roots frames) {id : ObjectId} (hid : id ∈ roots.ids) :
    heap.Accepts policy frames (.ref id) := hs.anchors id (List.mem_append_left _ hid)

theorem Sound.scope_lasts (hs : heap.Sound policy roots frames) {id : ObjectId}
    (hid : heap.Lasts frames (.ref id)) {scope : Value}
    (hscope : (heap.object id).scope = some scope) : heap.Lasts frames scope := by
  obtain ⟨hlive, hfree⟩ := hid id rfl
  intro target htarget
  cases scope with
  | fixnum n => cases htarget
  | ref other =>
    cases htarget
    obtain ⟨hother, hguard⟩ := (hs.objects id _ (get?_object hlive)).scope target hscope
    exact ⟨hother, fun frame hframe hmem => hfree frame hframe (hguard frame hframe hmem)⟩

theorem Sound.held_accepts (hs : heap.Sound policy roots frames) (id : ObjectId) {value : Value}
    (hvalue : value ∈ (heap.object id).held) : heap.Accepts policy frames value := by
  cases hget : heap.get? id with
  | none => simp [Heap.object, hget, Object.held, Payload.receiver?] at hvalue
  | some object =>
    rw [object_of_get? hget] at hvalue
    exact (hs.objects id object hget).held value hvalue

theorem accepts_of_get? {id : ObjectId} {object : Object} (hlasts : heap.Lasts frames (.ref id))
    (hget : heap.get? id = some object) (hplain : policy.strict → object.isActivation = false) :
    heap.Accepts policy frames (.ref id) := by
  refine ⟨hlasts, fun hstrict found hfound => ?_⟩
  simp only [object?, Value.toId?, Option.map_some, object_of_get? hget,
    Option.some.injEq] at hfound
  exact hfound ▸ hplain hstrict

/-- What lasts may be stored once it has left its call. -/
theorem Sound.effective_accepts (hs : heap.Sound policy roots frames) {value : Value}
    (hv : heap.Lasts frames value) : heap.Accepts policy frames (heap.effective value) := by
  cases value with
  | fixnum n => exact accepts_fixnum n
  | ref id =>
    rw [effective_ref]
    cases hreceiver : (heap.object id).payload.receiver? with
    | some receiver => exact hs.held_accepts id (by simp [Object.held, hreceiver])
    | none =>
      refine accepts_of_get? hv (get?_object hv.isLive) fun _ => ?_
      cases hpayload : (heap.object id).payload with
      | activation receiver => simp [hpayload, Payload.receiver?] at hreceiver
      | _ => simp [Object.isActivation, hpayload]

theorem Sound.code_of_method (hs : heap.Sound policy roots frames) {id : ObjectId} {method : Method}
    (h : (heap.object id).shape.method? = some method) : policy.code method.body.code := by
  cases hget : heap.get? id with
  | none => simp [Heap.object, hget, Shape.method?] at h
  | some object =>
    rw [object_of_get? hget] at h
    exact (hs.objects id object hget).code method h

theorem keeps_allocate (hs : heap.Sound policy roots frames) {object : Object}
    (hshaped : heap.Shaped policy.copies object)
    (hheld : ∀ value ∈ object.held, heap.Accepts policy frames value)
    (hscope : ∀ value, object.scope = some value → heap.Lasts frames value)
    (hcode : ∀ method, object.shape.method? = some method → policy.code method.body.code) :
    Keeps policy roots frames (allocate object) heap
      fun id heap' => heap'.Lasts frames (.ref id) ∧ heap'.get? id = some object := by
  refine ends_iff.2
    ⟨fun id heap' h => hs.allocate h hshaped hheld hscope hcode, fun fault heap' h => ?_⟩
  rw [(allocate_error h).1]
  exact hs.follows_self

/-- The shape of a copy comes from the original, if there is one. -/
theorem shaped_of_object {id : ObjectId} {object : Object}
    (hshape : object.shape = (heap.object id).shape)
    (hvalues : object.slotValues = (heap.object id).slotValues) :
    heap.Shaped policy.copies object := by
  cases hget : heap.get? id with
  | none =>
    have hempty : heap.object id = {} := by simp [Heap.object, hget]
    rw [hempty] at hshape hvalues
    exact .empty (by rw [hshape]) (by rw [hshape]) hvalues (by rw [hshape]) (by rw [hshape]; rfl)
  | some model =>
    rw [object_of_get? hget] at hshape hvalues
    exact .shared model (.of_get? hget) hshape (by rw [hvalues])

theorem keeps_copy (hs : heap.Sound policy roots frames) (id : ObjectId) {edit : Object → Object}
    (hshape : (edit (heap.object id)).shape = (heap.object id).shape)
    (hslots : (edit (heap.object id)).slotValues = (heap.object id).slotValues)
    (hparents : (edit (heap.object id)).parentValues = (heap.object id).parentValues)
    (hscope : ∀ value, (edit (heap.object id)).scope = some value → heap.Lasts frames value)
    (hreceiver : ∀ value, (edit (heap.object id)).payload.receiver? = some value →
      heap.Accepts policy frames value) :
    Keeps policy roots frames (copy id edit) heap
      fun new heap' => heap'.Lasts frames (.ref new) ∧ heap'.get? new = some (edit (heap.object id)) := by
  refine .get (keeps_allocate hs (shaped_of_object hshape hslots) (fun value hvalue => ?_) hscope fun method hm => ?_)
  · simp only [Object.held, hslots, hparents, List.mem_append, Option.mem_toList] at hvalue
    rcases hvalue with (hvalue | hvalue) | hvalue
    · exact hs.held_accepts id (by simp [Object.held, hvalue])
    · exact hs.held_accepts id (by simp [Object.held, hvalue])
    · exact hreceiver value hvalue
  · rw [hshape] at hm
    exact hs.code_of_method hm

theorem keeps_cloneWithPayload (hs : heap.Sound policy roots frames) {id : ObjectId}
    (hid : heap.Lasts frames (.ref id)) {payload : Payload} (hpayload : payload.receiver? = none) :
    Keeps policy roots frames (cloneWithPayload id payload) heap
      fun new heap' => heap'.Accepts policy frames (.ref new) := by
  refine (keeps_copy hs id rfl rfl rfl (fun value h => hs.scope_lasts hid h) fun value h => ?_).mono
    fun new heap' _ h => accepts_of_get? h.1 h.2 fun _ => ?_
  · rw [hpayload] at h
    cases h
  · cases payload with
    | activation receiver => cases hpayload
    | _ => rfl

theorem keeps_newString (hs : heap.Sound policy roots frames) (s : String) :
    Keeps policy roots frames (roots.newString s) heap fun value heap' => heap'.Accepts policy frames value :=
  (keeps_cloneWithPayload hs (hs.anchor_accepts (by simp [Roots.ids])).lasts rfl).bind
    fun _ _ h ha => .pure h.sound ha

theorem keeps_newFloat (hs : heap.Sound policy roots frames) (x : Float) :
    Keeps policy roots frames (roots.newFloat x) heap fun value heap' => heap'.Accepts policy frames value :=
  (keeps_cloneWithPayload hs (hs.anchor_accepts (by simp [Roots.ids])).lasts rfl).bind
    fun _ _ h ha => .pure h.sound ha

theorem mem_of_lookup {α : Type} [BEq α] [LawfulBEq α] {table : List (α × ObjectId)} {key : α}
    {id : ObjectId} (h : table.lookup key = some id) : id ∈ table.map (·.2) := by
  obtain ⟨before, after, htable, -⟩ := List.lookup_eq_some_iff.1 h
  simp [htable]

/-- Entering an object that lasts in one of the tables. -/
theorem Sound.record (hs : heap.Sound policy roots frames) {strings : List (String × ObjectId)}
    {templates : List (Site × ObjectId)} {nextUnit : Nat}
    (hstrings : ∀ id ∈ strings.map (·.2), id ∈ heap.strings.map (·.2) ∨
      heap.Accepts policy frames (.ref id))
    (htemplates : ∀ id ∈ templates.map (·.2), id ∈ heap.templates.map (·.2) ∨
      heap.Accepts policy frames (.ref id)) :
    Follows policy roots heap frames { heap with strings, templates, nextUnit } frames := by
  refine hs.aside (.single (.record strings templates nextUnit)) (fun _ => rfl) fun id hid => ?_
  simp only [Heap.anchors, List.mem_append] at hid ⊢
  rcases hid with hid | hid | hid
  · exact .inl (.inl hid)
  · exact (hstrings id hid).imp_left fun h => .inr (.inl h)
  · exact (htemplates id hid).imp_left fun h => .inr (.inr h)

theorem keeps_intern (hs : heap.Sound policy roots frames) (s : String) :
    Keeps policy roots frames (roots.intern s) heap fun value heap' => heap'.Accepts policy frames value := by
  refine .get ?_
  split
  · rename_i id hid
    exact .pure hs
      (hs.anchors id (List.mem_append_right _ (List.mem_append_left _ (mem_of_lookup hid))))
  · refine (keeps_cloneWithPayload hs (hs.anchor_accepts (by simp [Roots.ids])).lasts rfl).bind
      fun id heap' h ha => ?_
    have hrecord : Follows policy roots heap' frames { heap' with strings := (s, id) :: heap'.strings } frames := by
      refine h.sound.record (fun other hother => ?_) fun other hother => .inl hother
      rcases List.mem_cons.1 hother with rfl | hother
      · exact .inr ha
      · exact .inl hother
    exact (Keeps.modify hrecord (hrecord.accepts _ ha)).bind fun _ _ h ha => .pure h.sound ha

theorem keeps_newObject (hs : heap.Sound policy roots frames) :
    Keeps policy roots frames newObject heap fun id heap' => heap'.Accepts policy frames (.ref id) := by
  refine (keeps_allocate hs (.empty rfl rfl rfl rfl rfl) ?_ ?_ ?_).mono fun id heap' _ h =>
    accepts_of_get? h.1 h.2 fun _ => rfl
  · simp [Object.held, Payload.receiver?]
  · simp
  · simp [Shape.method?]

theorem keeps_newWithPayload (hs : heap.Sound policy roots frames) {payload : Payload}
    (hpayload : payload.receiver? = none) :
    Keeps policy roots frames (newWithPayload payload) heap fun id heap' =>
      heap'.Accepts policy frames (.ref id) ∧ ∃ object, heap'.get? id = some object ∧ object.payload = payload := by
  refine (keeps_allocate hs (.empty rfl rfl rfl rfl rfl) ?_ ?_ ?_).mono fun id heap' _ h =>
    ⟨accepts_of_get? h.1 h.2 fun _ => ?_, _, h.2, rfl⟩
  · simp [Object.held, hpayload]
  · simp
  · simp [Shape.method?]
  · cases payload with
    | activation receiver => cases hpayload
    | _ => rfl

theorem keeps_freshShape (hs : heap.Sound policy roots frames) :
    Keeps policy roots frames freshShape heap fun id heap' =>
      id = heap.nextShape ∧ heap' = { heap with nextShape := heap.nextShape + 1 } :=
  ⟨hs.aside (.single .drawShape) (fun _ => rfl) fun _ hid => .inl hid, rfl, rfl⟩

/-- Where the bindings of an object's calls get their shape: from an object that has the method already, or
from a number drawn for them. -/
def Bindable (copies : List Object) (heap : Heap) (behavior : Behavior) : Prop :=
  ∀ method, behavior = .method method →
    (∃ other, heap.Knows copies other ∧ other.shape.method? = some method) ∨
      0 < method.bindings ∧ method.bindings < heap.nextShape ∧
        ∀ other, heap.Knows copies other → other.Avoids method.bindings

theorem method?_eq_some_iff {shape : Shape} {method : Method} :
    shape.method? = some method ↔ shape.behavior = .method method := by
  unfold Shape.method?
  split <;> simp_all

theorem keeps_newObjectWith (hs : heap.Sound policy roots frames) {behavior : Behavior}
    (hbindable : heap.Bindable policy.copies behavior)
    (hcode : ∀ method, behavior = .method method → policy.code method.body.code) :
    Keeps policy roots frames (newObjectWith behavior) heap fun id heap' =>
      heap'.Accepts policy frames (.ref id) := by
  refine (keeps_freshShape hs).bind ?_
  rintro _ _ h ⟨rfl, rfl⟩
  have hbelow := hs.coherent.below
  have hlt (method : Method) (hm : behavior = .method method) : method.bindings < heap.nextShape := by
    rcases hbindable method hm with ⟨other, hknows, hother⟩ | ⟨-, hlt, -⟩
    · exact (hbelow other hknows).bindings method hother
    · exact hlt
  have hshaped : Shaped policy.copies { heap with nextShape := heap.nextShape + 1 }
      { shape := { id := heap.nextShape, behavior } } := by
    refine .own hs.coherent.nextShape_pos rfl ⟨Nat.lt_succ_self _, fun method hm => ?_⟩
      (fun other hknows => (hbelow other hknows).avoids) fun method hm => ?_
    · exact Nat.lt_succ_of_lt (hlt method (method?_eq_some_iff.1 hm))
    · have hm := method?_eq_some_iff.1 hm
      exact (hbindable method hm).imp_right fun h => ⟨h.1, Nat.ne_of_lt (hlt method hm), h.2.2⟩
  refine (keeps_allocate h.sound hshaped ?_ ?_ ?_).mono fun id heap' _ h => accepts_of_get? h.1 h.2
    fun _ => rfl
  · simp [Object.held, Payload.receiver?]
  · simp
  · exact fun method hm => hcode method (method?_eq_some_iff.1 hm)

theorem keeps_newMethod (hs : heap.Sound policy roots frames) {body : Body}
    (hcode : policy.code body.code) (params : List String) (isBlock : Bool) :
    Keeps policy roots frames (newMethod body params isBlock) heap fun id heap' =>
      heap'.Accepts policy frames (.ref id) := by
  refine (keeps_freshShape hs).bind ?_
  rintro _ _ h ⟨rfl, rfl⟩
  refine keeps_newObjectWith h.sound (fun method hm => .inr ?_) fun method hm => ?_
  · cases hm
    exact ⟨hs.coherent.nextShape_pos, Nat.lt_succ_self _,
      fun other hknows => (hs.coherent.below other hknows).avoids⟩
  · cases hm
    exact hcode

theorem keeps_template (hs : heap.Sound policy roots frames) (site : Site) (kind : ObjectKind)
    (params : List String) {code : Option Code} (hcode : policy.code (code.getD {}).finalize) :
    Keeps policy roots frames (template site kind params code) heap fun id heap' =>
      heap'.Accepts policy frames (.ref id) := by
  refine .get ?_
  split
  · rename_i id hid
    exact .pure hs
      (hs.anchors id (List.mem_append_right _ (List.mem_append_right _ (mem_of_lookup hid))))
  · have hrecord {id : ObjectId} {heap' : Heap} (hs' : heap'.Sound policy roots frames)
        (ha : heap'.Accepts policy frames (.ref id)) :
        Keeps policy roots frames
          (do modify fun heap => { heap with templates := (site, id) :: heap.templates }
              return id) heap' fun id heap'' => heap''.Accepts policy frames (.ref id) := by
      have hfollows : Follows policy roots heap' frames { heap' with templates := (site, id) :: heap'.templates }
          frames := by
        refine hs'.record (fun other hother => .inl hother) fun other hother => ?_
        rcases List.mem_cons.1 hother with rfl | hother
        · exact .inr ha
        · exact .inl hother
      exact (Keeps.modify hfollows (hfollows.accepts _ ha)).bind fun _ _ h ha => .pure h.sound ha
    cases kind with
    | plain => exact (keeps_newObject hs).bind fun id heap' h ha => hrecord h.sound ha
    | method =>
      exact (keeps_newMethod hs hcode params false).bind fun id heap' h ha => hrecord h.sound ha
    | block =>
      exact (keeps_newMethod hs hcode params true).bind fun id heap' h ha => hrecord h.sound ha

theorem keeps_instantiate (hs : heap.Sound policy roots frames) {template : ObjectId}
    (htemplate : heap.Accepts policy frames (.ref template)) {scope : Value}
    (hscope : heap.Lasts frames scope) :
    Keeps policy roots frames (instantiate template scope) heap fun id heap' =>
      heap'.Accepts policy frames (.ref id) := by
  refine (keeps_copy hs template rfl rfl rfl (fun value h => ?_) fun value h => ?_).mono
    fun id heap' _ h => accepts_of_get? h.1 h.2 fun hstrict => ?_
  · cases h
    exact hscope
  · exact hs.held_accepts template (by simp [Object.held, show _ = _ from h])
  · exact htemplate.plain hstrict (heap.object template) rfl

/-! ## The records of a call -/

/-- Puts one argument in its place. -/
def fill (layout : Layout) (values : List Value) (pair : String × Value) : List Value :=
  match layout.index? pair.1 with
  | some index => values.set index pair.2
  | none => values

theorem bindingValues_eq_foldl (method : Method) (args : List Value) (nil : Value) :
    method.bindingValues args nil =
      (method.params.zip args).foldl (fill method.bindingLayout)
        (List.replicate method.bindingLayout.length nil) := rfl

theorem length_fill (layout : Layout) (values : List Value) (pair : String × Value) :
    (fill layout values pair).length = values.length := by
  unfold fill
  split
  · rw [List.length_set]
  · rfl

theorem mem_of_mem_fill {layout : Layout} {values : List Value} {pair : String × Value}
    {value : Value} (h : value ∈ fill layout values pair) : value ∈ values ∨ value = pair.2 := by
  unfold fill at h
  split at h
  · exact List.mem_or_eq_of_mem_set h
  · exact .inl h

theorem length_foldl_fill (layout : Layout) (pairs : List (String × Value)) (values : List Value) :
    (pairs.foldl (fill layout) values).length = values.length := by
  induction pairs generalizing values with
  | nil => rfl
  | cons pair pairs ih => rw [List.foldl_cons, ih, length_fill]

theorem mem_of_mem_foldl_fill {layout : Layout} {pairs : List (String × Value)}
    {values : List Value} {value : Value} (h : value ∈ pairs.foldl (fill layout) values) :
    value ∈ values ∨ value ∈ pairs.map (·.2) := by
  induction pairs generalizing values with
  | nil => exact .inl h
  | cons pair pairs ih =>
    rcases ih h with h | h
    · exact (mem_of_mem_fill h).imp_right fun heq => by simp [heq]
    · exact .inr (by simp [h])

theorem length_bindingValues (method : Method) (args : List Value) (nil : Value) :
    (method.bindingValues args nil).length = method.bindingLayout.length := by
  rw [bindingValues_eq_foldl, length_foldl_fill, List.length_replicate]

theorem mem_of_mem_bindingValues {method : Method} {args : List Value} {nil value : Value}
    (h : value ∈ method.bindingValues args nil) : value = nil ∨ value ∈ args := by
  rw [bindingValues_eq_foldl] at h
  rcases mem_of_mem_foldl_fill h with h | h
  · exact .inl (List.eq_of_mem_replicate h)
  · obtain ⟨pair, hpair, rfl⟩ := List.mem_map.1 h
    exact .inr (List.of_mem_zip hpair).2

/-- A frame for a call with these records that is about to begin. -/
structure Opens (policy : Policy) (heap : Heap) (frames : List Frame) (records : Records) (frame : Frame) : Prop where
  captured_eq : frame.captured = false
  records_eq : frame.records = records.ids
  activation_eq : frame.activation = .ref records.activation
  stack_eq : frame.stack = []
  held : ∀ value ∈ frame.held, heap.Accepts policy frames value
  code : policy.code frame.body.code

theorem Adds.brings {object : Object} {id : ObjectId} (h : heap.Adds object id heap') :
    Brings [(id, object)] heap heap' := by
  refine ⟨by simp, by simpa using h.unissued, by simpa using h.get?_self, fun other hother => ?_, h.strings_eq,
    h.templates_eq⟩
  exact h.get?_of_ne other (by simpa using hother)

theorem Adds.brings_two {middle : Heap} {first second : Object} {id id' : ObjectId}
    (h : heap.Adds first id middle) (h' : middle.Adds second id' heap') :
    Brings [(id', second), (id, first)] heap heap' := by
  have hissued : middle.Issued id := .of_get? h.get?_self
  have hne : id' ≠ id := by
    rintro rfl
    exact h'.unissued hissued
  refine ⟨by simpa using hne, ?_, ?_, fun other hother => ?_, h'.strings_eq.trans h.strings_eq,
    h'.templates_eq.trans h.templates_eq⟩
  · simp only [List.forall_mem_cons]
    exact ⟨fun hid => h'.unissued (h.issued id' hid), h.unissued, by simp⟩
  · simp only [List.forall_mem_cons]
    exact ⟨h'.get?_self, h'.get?_of_some h.get?_self, by simp⟩
  · simp only [List.map_cons, List.map_nil, List.mem_cons, List.not_mem_nil, or_false,
      not_or] at hother
    rw [h'.get?_of_ne other hother.1, h.get?_of_ne other hother.2]

/-- The object that stands for a call of `object`. -/
def activationOf (object : Object) (scope receiver : Value) : Object :=
  { object with scope := some scope, payload := .activation receiver }

def bindingOf (method : Method) (args : List Value) (nil scope : Value) : Object where
  shape := { id := method.bindings, slots := method.bindingLayout }
  slotValues := method.bindingValues args nil
  scope := some scope

theorem newActivation_apply (object : ObjectId) (scope receiver : Value) (heap : Heap) :
    newActivation object scope receiver heap = allocate (activationOf (heap.object object) scope receiver) heap := rfl

theorem newBinding_apply (method : Method) (args : List Value) (nil scope : Value) (heap : Heap) :
    newBinding method args nil scope heap = allocate (bindingOf method args nil scope) heap := rfl

theorem Sound.activation_held (hs : heap.Sound policy roots frames) (object : ObjectId)
    (scope : Value) {receiver : Value} (hreceiver : heap.Accepts policy frames receiver) :
    ∀ value ∈ (activationOf (heap.object object) scope receiver).held, heap.Accepts policy frames value := by
  intro value hvalue
  simp only [activationOf, Object.held, Payload.receiver?, List.mem_append, Option.toList_some,
    List.mem_singleton] at hvalue
  rcases hvalue with (hvalue | hvalue) | rfl
  · exact hs.held_accepts object (by simp [Object.held, hvalue])
  · exact hs.held_accepts object (by simp [Object.held, hvalue])
  · exact hreceiver

theorem bindingOf_held (method : Method) {args : List Value} {nil : Value} (scope : Value)
    (hargs : ∀ value ∈ args, heap.Accepts policy frames value)
    (hnil : heap.Accepts policy frames nil) :
    ∀ value ∈ (bindingOf method args nil scope).held, heap.Accepts policy frames value := by
  intro value hvalue
  simp only [bindingOf, Object.held, Payload.receiver?, List.append_nil,
    Option.toList_none] at hvalue
  rcases mem_of_mem_bindingValues hvalue with rfl | hvalue
  · exact hnil
  · exact hargs value hvalue

theorem bindingOf_shaped (policy : Policy) {object : ObjectId} {method : Method}
    (hmethod : (heap.object object).shape.method? = some method) (args : List Value)
    (nil scope : Value) : heap.Shaped policy.copies (bindingOf method args nil scope) := by
  cases hget : heap.get? object with
  | none => simp [Heap.object, hget, Shape.method?] at hmethod
  | some model =>
    rw [object_of_get? hget] at hmethod
    exact .binding model method (.of_get? hget) hmethod rfl rfl
      (length_bindingValues method args nil) rfl rfl

theorem activationOf_shaped (policy : Policy) (heap : Heap) (object : ObjectId) (scope receiver : Value) :
    heap.Shaped policy.copies (activationOf (heap.object object) scope receiver) := shaped_of_object rfl rfl

/-- A call without parameters. -/
theorem Sound.open_plain (hs : heap.Sound policy roots frames) {object id : ObjectId}
    {lexical receiver : Value} (hlexical : heap.Lasts frames lexical)
    (hreceiver : heap.Accepts policy frames receiver)
    (h : Heap.allocate (activationOf (heap.object object) lexical receiver) heap = .ok id heap')
    {frame : Frame} (ho : Opens policy heap frames ⟨id, none⟩ frame) :
    Follows policy roots heap frames heap' (frame :: frames) := by
  have hheld := hs.activation_held object lexical hreceiver
  have hscope : ∀ value, some lexical = some value → heap.Lasts frames value := by
    rintro value ⟨⟩
    exact hlexical
  have hadmits :=
    admits_of_accepts (activationOf_shaped policy heap object lexical receiver) hheld hscope
  refine hs.enter (.single (.allocate hadmits h)) (allocate_adds hs.coherent.tidy h).brings ho.captured_eq
    ho.records_eq ?_ ?_ ?_ ?_ ⟨_, List.mem_cons_self, ho.activation_eq, rfl⟩ ho.stack_eq ho.held ho.code
  · simp [activationOf, Payload.isToken]
  · simpa using hheld
  · simpa [activationOf] using .inl hlexical
  · simpa [activationOf] using fun _ => hs.code_of_method

/-- A call with parameters: the activation has the binding as its scope. -/
theorem Sound.open_bound (hs : heap.Sound policy roots frames) {object id binding : ObjectId}
    {method : Method} (hmethod : (heap.object object).shape.method? = some method)
    {args : List Value} {nil lexical receiver : Value}
    (hargs : ∀ value ∈ args, heap.Accepts policy frames value)
    (hnil : heap.Accepts policy frames nil) (hlexical : heap.Lasts frames lexical)
    (hreceiver : heap.Accepts policy frames receiver) {middle : Heap}
    (hbinding : Heap.allocate (bindingOf method args nil lexical) heap = .ok binding middle)
    (h : Heap.allocate (activationOf (middle.object object) (.ref binding) receiver) middle =
      .ok id heap') {frame : Frame} (ho : Opens policy heap frames ⟨id, some binding⟩ frame) :
    Follows policy roots heap frames heap' (frame :: frames) := by
  have hheld := bindingOf_held method lexical hargs hnil
  have hshaped := bindingOf_shaped policy hmethod args nil lexical
  have hscope : ∀ value, some lexical = some value → heap.Lasts frames value := by
    rintro value ⟨⟩
    exact hlexical
  have hadds := allocate_adds hs.coherent.tidy hbinding
  obtain ⟨hfollows, hlasts, -⟩ := hs.allocate hbinding hshaped hheld hscope fun found h => by cases h
  have hobject : middle.object object = heap.object object := by
    cases hget : heap.get? object with
    | none => simp [Heap.object, hget, Shape.method?] at hmethod
    | some found => rw [object_of_get? hget, object_of_get? (hadds.get?_of_some hget)]
  have hscope' : ∀ value, some (Value.ref binding) = some value → middle.Lasts frames value := by
    rintro value ⟨⟩
    exact hlasts
  have hadmits' := admits_of_accepts (activationOf_shaped policy middle object (.ref binding) receiver)
    (hfollows.sound.activation_held object (.ref binding) (hfollows.accepts _ hreceiver)) hscope'
  refine hs.enter (.tail (.single (.allocate (admits_of_accepts hshaped hheld hscope) hbinding)) (.allocate hadmits' h))
    (hadds.brings_two (allocate_adds hfollows.sound.coherent.tidy h)) ho.captured_eq ho.records_eq
    ?_ ?_ ?_ ?_ ⟨_, List.mem_cons_self, ho.activation_eq, rfl⟩ ho.stack_eq ho.held ho.code
  · simp [activationOf, bindingOf, Payload.isToken]
  · rw [hobject]
    simpa using ⟨hs.activation_held object (.ref binding) hreceiver, hheld⟩
  · simpa [activationOf, bindingOf] using .inl hlexical
  · rw [hobject]
    simpa [activationOf, bindingOf, Shape.method?] using fun _ => hs.code_of_method

theorem ends_releaseOnFault {α : Type} {id : ObjectId} {x : HeapM α} {Q : α → Heap → Prop}
    {E : Fault → Heap → Prop} :
    Ends (releaseOnFault id x) heap Q E ↔ Ends x heap Q fun fault heap' => E fault (heap'.release id) := by
  simp only [Ends, releaseOnFault]
  cases x heap <;> rfl

/-- A call gets its records, and with them a frame that keeps the heap sound, or nothing is left of them. -/
theorem newRecords_opens (hs : heap.Sound policy roots frames) {object : ObjectId}
    {method : Method} (hmethod : (heap.object object).shape.method? = some method)
    {args : List Value} {nil lexical receiver : Value}
    (hargs : ∀ value ∈ args, heap.Accepts policy frames value)
    (hnil : heap.Accepts policy frames nil) (hlexical : heap.Lasts frames lexical)
    (hreceiver : heap.Accepts policy frames receiver) :
    Ends (newRecords object method args nil lexical receiver) heap
      (fun records heap' => ∀ frame, Opens policy heap frames records frame →
        Follows policy roots heap frames heap' (frame :: frames))
      fun _ heap' => Follows policy roots heap frames heap' frames := by
  unfold newRecords
  split
  · simp only [ends_bind, ends_pure]
    refine ends_iff.2
      ⟨fun id heap' h frame ho => hs.open_plain hlexical hreceiver h ho, fun fault heap' h => ?_⟩
    rw [newActivation_apply] at h
    rw [(allocate_error h).1]
    exact hs.follows_self
  · simp only [ends_bind, ends_pure]
    refine ends_iff.2 ⟨fun binding middle hbinding => ?_, fun fault heap' h => ?_⟩
    · rw [newBinding_apply] at hbinding
      refine ends_releaseOnFault.2
        (ends_iff.2 ⟨fun id heap' h frame ho => ?_, fun fault heap' h => ?_⟩)
      · exact hs.open_bound hmethod hargs hnil hlexical hreceiver hbinding h ho
      · have hadmits : heap.Admits policy.copies (bindingOf method args nil lexical) := by
          refine admits_of_accepts (bindingOf_shaped policy hmethod args nil lexical)
            (bindingOf_held method lexical hargs hnil) ?_
          rintro value ⟨⟩
          exact hlexical
        rw [newActivation_apply] at h
        rw [(allocate_error h).1]
        exact hs.withdraw hbinding hadmits rfl
    · rw [newBinding_apply] at h
      rw [(allocate_error h).1]
      exact hs.follows_self

end ProtoVm.Heap
