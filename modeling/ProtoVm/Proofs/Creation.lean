import ProtoVm.Proofs.CachedSearch
import ProtoVm.Proofs.Making

/-!
# The first heap

The heap that the root objects are made in is sound from the first object on, and when all of them are
there it is sound with them as its roots.
-/

namespace ProtoVm.Heap

variable {policy : Policy} {roots : Roots} {ids : List ObjectId} {heap : Heap}

/-- A sound heap without frames in which nothing was looked up yet, and some of the objects made in it. -/
structure Young (policy : Policy) (roots : Roots) (ids : List ObjectId) (heap : Heap) : Prop where
  sound : heap.Sound policy roots []
  cache_eq : heap.cache = []
  made : ∀ id ∈ ids, heap.Accepts policy [] (.ref id)

/-- One object in the place of every root. -/
def Roots.all (id : ObjectId) : Roots :=
  ⟨id, id, id, id, id, id, id, id, id, id, id, id⟩

theorem Young.mono {ids' : List ObjectId} (h : Young policy roots ids heap) (hsub : ids' ⊆ ids) :
    Young policy roots ids' heap := ⟨h.sound, h.cache_eq, fun id hid => h.made id (hsub hid)⟩

theorem Young.cons {heap' : Heap} {id : ObjectId} (h : Young policy roots ids heap)
    (hf : Follows policy roots heap [] heap' []) (hid : heap'.Accepts policy [] (.ref id))
    (hcache : heap'.cache = heap.cache) : Young policy roots (id :: ids) heap' := by
  refine ⟨hf.sound, hcache.trans h.cache_eq, fun other hother => ?_⟩
  rcases List.mem_cons.1 hother with rfl | hother
  · exact hid
  · exact hf.accepts _ (h.made other hother)

theorem young_first {id : ObjectId} {heap : Heap} {limit : Nat} (hcopies : policy.copies = [])
    (h : newObject (Heap.empty limit) = .ok id heap) : Young policy (Roots.all id) [id] heap := by
  have hc := coherent_empty limit
  have hadds := allocate_adds hc.tidy h
  have hget {other : ObjectId} {object : Object} (hother : heap.get? other = some object) : object = {} := by
    by_cases heq : other = id
    · rw [heq, hadds.get?_self] at hother
      exact (Option.some.inj hother).symm
    · rw [hadds.get?_of_ne other heq] at hother
      simp [Heap.empty, get?] at hother
  have haccepts : heap.Accepts policy [] (.ref id) :=
    accepts_of_get? (.ref (isLive_iff.2 ⟨_, hadds.get?_self⟩) (by simp)) hadds.get?_self fun _ => rfl
  have hadmits : (Heap.empty limit).Admits [] {} :=
    ⟨.empty rfl rfl rfl rfl rfl, by simp [Object.edges]⟩
  refine ⟨⟨hcopies ▸ hc.adds hadmits hadds, by simp, fun other object hother => ?_, by simp, fun other hother => ?_⟩,
    hadds.cache_eq, by simpa using haccepts⟩
  · cases hget hother
    exact ⟨by simp [Object.held, Payload.receiver?], by simp, by simp [Shape.method?]⟩
  · have hid : other = id := by
      simpa [Heap.anchors, Roots.ids, Roots.all, hadds.strings_eq, hadds.templates_eq,
        Heap.empty] using hother
    exact hid ▸ haccepts

theorem cache_allocate {heap heap' : Heap} {object : Object} {id : ObjectId} (tidy : heap.Tidy)
    (h : allocate object heap = .ok id heap') : heap'.cache = heap.cache := (allocate_adds tidy h).cache_eq

theorem young_newObject (h : Young policy roots ids heap) :
    Ends newObject heap (fun id heap' => Young policy roots (id :: ids) heap') fun _ _ => True := by
  refine ends_iff.2 ⟨fun id heap' hnew => ?_, fun _ _ _ => trivial⟩
  obtain ⟨hf, hid⟩ := (keeps_newObject h.sound).of_ok hnew
  exact h.cons hf hid (cache_allocate h.sound.coherent.tidy hnew)

theorem newObjectWith_apply (behavior : Behavior) (heap : Heap) :
    newObjectWith behavior heap =
      allocate { shape := { id := heap.nextShape, behavior } } { heap with nextShape := heap.nextShape + 1 } := rfl

theorem young_newObjectWith (h : Young policy roots ids heap) (behavior : Behavior)
    (hplain : ∀ method, behavior ≠ .method method) :
    Ends (newObjectWith behavior) heap (fun id heap' => Young policy roots (id :: ids) heap') fun _ _ => True := by
  refine ends_iff.2 ⟨fun id heap' hnew => ?_, fun _ _ _ => trivial⟩
  obtain ⟨hf, hid⟩ := (keeps_newObjectWith h.sound (fun method hm => absurd hm (hplain method))
    fun method hm => absurd hm (hplain method)).of_ok hnew
  have htidy : Tidy { heap with nextShape := heap.nextShape + 1 } :=
    ⟨h.sound.coherent.tidy.free_nodup, h.sound.coherent.tidy.free_empty, h.sound.coherent.tidy.size_le⟩
  rw [newObjectWith_apply] at hnew
  have hcache := cache_allocate htidy hnew
  exact h.cons hf hid hcache

theorem cache_restructure (heap : Heap) (id : ObjectId) (edit : Object → Object) :
    (heap.restructure id edit).cache = heap.cache := by
  unfold restructure update
  simp only
  split <;> rfl

theorem Young.restructure (h : Young policy roots ids heap) (target : ObjectId) {value : ObjectId}
    (hvalue : value ∈ ids) {edit : Object → Object}
    (hedit : ∀ object : Object, object.Edited [.ref value] (edit object)) :
    Young policy roots ids (heap.restructure target edit) := by
  have hf := h.sound.restructure target hedit (by simpa using h.made value hvalue)
  exact ⟨hf.sound, (heap.cache_restructure target edit).trans h.cache_eq,
    fun id hid => hf.accepts _ (h.made id hid)⟩

theorem Young.addSlot (h : Young policy roots ids heap) (target : ObjectId) (name : String)
    (value : ObjectId) (hvalue : value ∈ ids) :
    Young policy roots ids (heap.addSlot target name (.ref value)) :=
  h.restructure target hvalue fun object => object.addSlot_edited name (.ref value)

theorem young_newPrototype (h : Young policy roots ids heap) (traits : ObjectId)
    (htraits : traits ∈ ids) {payload : Payload} (hpayload : payload.receiver? = none) :
    Ends (Roots.newPrototype traits payload) heap (fun id heap' => Young policy roots (id :: ids) heap')
      fun _ _ => True := by
  unfold Roots.newPrototype
  simp only [ends_bind, ends_modify, ends_pure]
  refine ends_iff.2 ⟨fun id heap' hnew => ?_, fun _ _ _ => trivial⟩
  obtain ⟨hf, hid, -⟩ := (keeps_newWithPayload h.sound hpayload).of_ok hnew
  have hyoung := h.cons hf hid (cache_allocate h.sound.coherent.tidy hnew)
  exact hyoung.restructure id (.tail _ htraits) fun object => object.addParent_edited "traits"
    (.ref traits)

theorem young_install (h : Young policy roots ids heap) (target : ObjectId)
    (natives : List Native) :
    Ends (Roots.install target natives) heap (fun _ heap' => Young policy roots ids heap') fun _ _ => True := by
  unfold Roots.install
  induction natives generalizing heap with
  | nil => exact h
  | cons native natives ih =>
    simp only [List.forM, ends_bind, ends_modify]
    refine (young_newObjectWith h (.native native) (by simp)).mono (fun object heap' h' => ?_)
      fun _ _ _ => trivial
    exact ih ((h'.addSlot target native.selector object List.mem_cons_self).mono (List.subset_cons_self _ _))

theorem young_create (hcopies : policy.copies = []) (limit : Nat) :
    Ends Roots.create (Heap.empty limit) (fun roots heap => ∃ first, Young policy (Roots.all first) roots.ids heap)
      fun _ _ => True := by
  unfold Roots.create
  simp only [ends_bind, ends_modify, ends_pure]
  have hfault : ∀ (fault : Fault) (heap : Heap), True → True := fun _ _ _ => trivial
  refine ends_iff.2 ⟨fun nil heap hnil => ?_, fun _ _ _ => trivial⟩
  have hfirst := young_first hcopies hnil
  refine (young_newObject hfirst).mono (fun trueObject heap h => ?_) hfault
  refine (young_newObject h).mono (fun falseObject heap h => ?_) hfault
  refine (young_newObjectWith h .assignment (by simp)).mono (fun assignment heap h => ?_) hfault
  refine (young_newObject h).mono (fun fixnumTraits heap h => ?_) hfault
  refine (young_newObject h).mono (fun floatTraits heap h => ?_) hfault
  refine (young_newObject h).mono (fun stringTraits heap h => ?_) hfault
  refine (young_newPrototype h floatTraits (by simp) rfl).mono
    (fun floatPrototype heap h => ?_) hfault
  refine (young_newPrototype h stringTraits (by simp) rfl).mono
    (fun stringPrototype heap h => ?_) hfault
  refine (young_newObject h).mono (fun interpreter heap h => ?_) hfault
  refine (young_newObject h).mono (fun primitives heap h => ?_) hfault
  have h := h.addSlot primitives "interpreter" interpreter (by simp)
  have h := h.addSlot primitives "nil" nil (by simp)
  have h := h.addSlot primitives "true" trueObject (by simp)
  have h := h.addSlot primitives "false" falseObject (by simp)
  refine (young_newObject h).mono (fun lobby heap h => ?_) hfault
  have h := h.addSlot lobby "primitives" primitives (by simp)
  refine (young_install h fixnumTraits _).mono (fun _ heap h => ?_) hfault
  refine (young_install h floatTraits _).mono (fun _ heap h => ?_) hfault
  refine (young_install h stringTraits _).mono (fun _ heap h => ?_) hfault
  refine (young_install h interpreter _).mono (fun _ heap h => ?_) hfault
  refine (young_install h nil _).mono (fun _ heap h => ?_) hfault
  refine (young_install h trueObject _).mono (fun _ heap h => ?_) hfault
  refine (young_install h falseObject _).mono (fun _ heap h => ?_) hfault
  exact ⟨nil, h.mono (by simp [Roots.ids])⟩

/-- The first heap is sound and remembers nothing. -/
theorem sound_of_create (hcopies : policy.copies = []) {limit : Nat} {roots : Roots} {heap : Heap}
    (h : Roots.create (Heap.empty limit) = .ok roots heap) :
    heap.Sound policy roots [] ∧ heap.Remembers roots := by
  obtain ⟨first, hyoung⟩ := (young_create hcopies limit).of_ok h
  refine ⟨⟨hyoung.sound.coherent, hyoung.sound.records_nodup, hyoung.sound.objects, hyoung.sound.activations,
    fun id hid => ?_⟩, fun shape name entry hmem => ?_⟩
  · rcases List.mem_append.1 hid with hid | hid
    · exact hyoung.made id hid
    · exact hyoung.sound.anchors id (List.mem_append_right _ hid)
  · rw [hyoung.cache_eq] at hmem
    cases hmem

end ProtoVm.Heap
