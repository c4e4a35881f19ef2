import Mathlib.Data.List.Flatten
import Mathlib.Data.List.Perm.Subperm
import ProtoVm.Machine
import ProtoVm.Proofs.Change

/-!
# Custody

A frame that was not captured gives its records back when it goes. The invariant that makes this safe:
nothing that may outlast the frame refers to its records, and whatever does refer to them is given back
together with them.
-/

namespace ProtoVm

/-- What is promised about the values that are stored and about the code that runs. -/
structure Policy where
  /-- No activation is stored where it could outlast its call. -/
  strict : Prop
  code : Code → Prop
  /-- Copies of objects that are kept outside the heap. -/
  copies : List Object
  nested : ∀ unit, code unit → ∀ kind params inner, Literal.object kind params inner ∈ unit.literals →
    code (inner.getD {}).finalize

def Payload.receiver? : Payload → Option Value
  | .activation receiver => some receiver
  | _ => Option.none

/-- The values in an object, its scope apart. -/
def Object.held (object : Object) : List Value :=
  object.slotValues ++ object.parentValues ++ object.payload.receiver?.toList

def FrameKind.error? : FrameKind → Option Value
  | .call => none
  | .handler error => some error

/-- The values in a frame, its operands and its activation apart. -/
def Frame.held (frame : Frame) : List Value :=
  frame.receiver :: (frame.handler.toList ++ frame.kind.error?.toList)

def Roots.ids (roots : Roots) : List ObjectId :=
  [roots.nil, roots.trueObject, roots.falseObject, roots.assignment, roots.fixnumTraits, roots.floatTraits,
    roots.stringTraits, roots.floatPrototype, roots.stringPrototype, roots.interpreter, roots.primitives,
    roots.lobby]

/-- The objects that the machine itself refers to. -/
def Heap.anchors (heap : Heap) (roots : Roots) : List ObjectId :=
  roots.ids ++ (heap.strings.map (·.2) ++ heap.templates.map (·.2))

theorem Frame.mem_records_of_mem_releasable {frame : Frame} {id : ObjectId}
    (h : id ∈ frame.releasable) : id ∈ frame.records := by
  unfold Frame.releasable at h
  split at h
  · cases h
  · exact h

/-- The value is an integer, or an object that no frame gives back. -/
def Heap.Lasts (heap : Heap) (frames : List Frame) (value : Value) : Prop :=
  ∀ id, value.toId? = some id → heap.isLive id = true ∧ ∀ frame ∈ frames, id ∉ frame.releasable

/-- The value may be stored anywhere. -/
structure Heap.Accepts (policy : Policy) (heap : Heap) (frames : List Frame) (value : Value) : Prop where
  lasts : heap.Lasts frames value
  plain : policy.strict → ∀ object, heap.object? value = some object → object.isActivation = false

structure Object.Sound (policy : Policy) (heap : Heap) (frames : List Frame) (id : ObjectId) (object : Object) :
    Prop where
  held : ∀ value ∈ object.held, heap.Accepts policy frames value
  /-- Who gives the scope back gives the object back as well. -/
  scope : ∀ target, object.scope = some (.ref target) → heap.isLive target = true ∧
    ∀ frame ∈ frames, target ∈ frame.releasable → id ∈ frame.releasable
  code : ∀ method, object.shape.method? = some method → policy.code method.body.code

structure Frame.Sound (policy : Policy) (heap : Heap) (frames : List Frame) (frame : Frame) : Prop where
  records : ∀ id ∈ frame.records, ∃ object, heap.get? id = some object ∧ object.payload.isToken = false
  activation : ∀ id, frame.activation = .ref id → heap.isLive id = true ∧
    ∀ other ∈ frames, id ∈ other.releasable → id ∈ frame.releasable
  effective : heap.Accepts policy frames (heap.effective frame.activation)
  stack : ∀ value ∈ frame.stack, value = frame.activation ∨ heap.Accepts policy frames value
  held : ∀ value ∈ frame.held, heap.Accepts policy frames value
  code : policy.code frame.body.code

/-- `frame'` is `frame` with other operands, kept values or place in its code; it may have been captured. -/
structure Frame.Adjusted (policy : Policy) (heap : Heap) (frames : List Frame) (frame frame' : Frame) : Prop where
  records_eq : frame'.records = frame.records
  releasable : frame'.releasable = frame.releasable ∨ frame'.releasable = []
  activation_eq : frame'.activation = frame.activation
  body_eq : frame'.body = frame.body
  stack : ∀ value ∈ frame'.stack, value = frame.activation ∨ heap.Accepts policy frames value
  held : ∀ value ∈ frame'.held, heap.Accepts policy frames value

namespace Heap

structure Sound (policy : Policy) (roots : Roots) (heap : Heap) (frames : List Frame) : Prop where
  coherent : heap.Coherent policy.copies
  records_nodup : (frames.flatMap (·.records)).Nodup
  objects : ∀ id object, heap.get? id = some object → object.Sound policy heap frames id
  activations : ∀ frame ∈ frames, frame.Sound policy heap frames
  anchors : ∀ id ∈ heap.anchors roots, heap.Accepts policy frames (.ref id)

/-! ## What stays acceptable -/

/-- Between the two states nothing but `gone`, the records of whole frames, is given back, and every frame
of the later one has the records of an earlier one or new ones. -/
structure Carries (gone : List ObjectId) (heap : Heap) (frames : List Frame) (heap' : Heap)
    (frames' : List Frame) : Prop where
  kept : ∀ id object, heap.get? id = some object → id ∉ gone →
    ∃ object', heap'.get? id = some object' ∧ object'.payload = object.payload
  dead : ∀ id ∈ gone, heap'.get? id = none
  whole : ∀ id ∈ gone, ∃ frame ∈ frames, id ∈ frame.releasable ∧ ∀ other ∈ frame.releasable, other ∈ gone
  pending : ∀ frame' ∈ frames', (∃ frame ∈ frames, frame'.releasable = frame.releasable) ∨
    ∀ id ∈ frame'.releasable, heap.get? id = none

section

variable {policy : Policy} {roots : Roots} {gone : List ObjectId} {heap heap' : Heap}
  {frames frames' : List Frame}

theorem effective_ref (heap : Heap) (id : ObjectId) :
    heap.effective (.ref id) = (heap.object id).payload.receiver?.getD (.ref id) := by
  unfold effective object? Value.toId?
  rw [Option.map_some]
  rcases heap.object id with ⟨shape, slots, parents, scope, payload⟩
  cases payload <;> rfl

theorem effective_eq_of_payload {id : ObjectId} {object object' : Object}
    (hget : heap.get? id = some object) (hget' : heap'.get? id = some object')
    (hpayload : object'.payload = object.payload) :
    heap'.effective (.ref id) = heap.effective (.ref id) := by
  rw [effective_ref, effective_ref, object_of_get? hget, object_of_get? hget', hpayload]

theorem Lasts.ref {id : ObjectId} (hlive : heap.isLive id = true)
    (hfree : ∀ frame ∈ frames, id ∉ frame.releasable) : heap.Lasts frames (.ref id) := by
  intro other h
  cases h
  exact ⟨hlive, hfree⟩

theorem Lasts.isLive {id : ObjectId} (h : heap.Lasts frames (.ref id)) : heap.isLive id = true := (h id rfl).1

theorem Accepts.isLive {id : ObjectId} (h : heap.Accepts policy frames (.ref id)) :
    heap.isLive id = true :=
  h.lasts.isLive

theorem accepts_fixnum (n : Fixnum) : heap.Accepts policy frames (.fixnum n) :=
  ⟨fun _ h => (nomatch h), fun _ _ h => (nomatch h)⟩

/-- A lasting object is still there, with its payload, and still lasts. -/
theorem Carries.kept_of_free (h : Carries gone heap frames heap' frames') {id : ObjectId}
    {object : Object} (hget : heap.get? id = some object)
    (hfree : ∀ frame ∈ frames, id ∉ frame.releasable) :
    ∃ object', heap'.get? id = some object' ∧ object'.payload = object.payload := by
  refine h.kept id object hget fun hgone => ?_
  obtain ⟨frame, hframe, hid, -⟩ := h.whole id hgone
  exact hfree frame hframe hid

theorem Carries.free (h : Carries gone heap frames heap' frames') {id : ObjectId} {object : Object}
    (hget : heap.get? id = some object) (hfree : ∀ frame ∈ frames, id ∉ frame.releasable) :
    ∀ frame' ∈ frames', id ∉ frame'.releasable := by
  intro frame' hframe' hid
  rcases h.pending frame' hframe' with ⟨frame, hframe, heq⟩ | hnew
  · exact hfree frame hframe (heq ▸ hid)
  · rw [hnew id hid] at hget
    cases hget

theorem Lasts.carries {value : Value} (hv : heap.Lasts frames value)
    (h : Carries gone heap frames heap' frames') : heap'.Lasts frames' value := by
  intro id hid
  obtain ⟨hlive, hfree⟩ := hv id hid
  obtain ⟨object, hget⟩ := isLive_iff.1 hlive
  obtain ⟨object', hget', -⟩ := h.kept_of_free hget hfree
  exact ⟨isLive_iff.2 ⟨object', hget'⟩, h.free hget hfree⟩

theorem Accepts.carries {value : Value} (hv : heap.Accepts policy frames value)
    (h : Carries gone heap frames heap' frames') : heap'.Accepts policy frames' value := by
  refine ⟨hv.lasts.carries h, fun hstrict object' hobject' => ?_⟩
  cases value with
  | fixnum n => cases hobject'
  | ref id =>
    obtain ⟨hlive, hfree⟩ := hv.lasts id rfl
    obtain ⟨object, hget⟩ := isLive_iff.1 hlive
    obtain ⟨found, hget', hpayload⟩ := h.kept_of_free hget hfree
    have hplain := hv.plain hstrict object (by simp [object?, Value.toId?, object_of_get? hget])
    simp only [object?, Value.toId?, Option.map_some, object_of_get? hget',
      Option.some.injEq] at hobject'
    subst hobject'
    simpa only [Object.isActivation, hpayload] using hplain

theorem Object.Sound.carries {id : ObjectId} {object found : Object}
    (hs : object.Sound policy heap frames id) (h : Carries gone heap frames heap' frames')
    (hget : heap'.get? id = some found) : object.Sound policy heap' frames' id := by
  refine ⟨fun value hvalue => (hs.held value hvalue).carries h, fun target htarget => ?_, hs.code⟩
  obtain ⟨hlive, hguard⟩ := hs.scope target htarget
  obtain ⟨scope, hscope⟩ := isLive_iff.1 hlive
  have hkept : target ∉ gone := by
    intro hgone
    obtain ⟨frame, hframe, hmem, hall⟩ := h.whole target hgone
    rw [h.dead id (hall id (hguard frame hframe hmem))] at hget
    cases hget
  obtain ⟨scope', hscope', -⟩ := h.kept target scope hscope hkept
  refine ⟨isLive_iff.2 ⟨scope', hscope'⟩, fun frame' hframe' hmem => ?_⟩
  rcases h.pending frame' hframe' with ⟨frame, hframe, heq⟩ | hnew
  · rw [heq] at hmem ⊢
    exact hguard frame hframe hmem
  · rw [hnew target hmem] at hscope
    cases hscope

theorem Frame.Sound.carries {frame : Frame} (hs : frame.Sound policy heap frames)
    (h : Carries gone heap frames heap' frames') (hrecords : ∀ id ∈ frame.records, id ∉ gone) :
    frame.Sound policy heap' frames' := by
  have hactivation (id : ObjectId) (heq : frame.activation = .ref id) :
      ∃ object object', heap.get? id = some object ∧ heap'.get? id = some object' ∧
        object'.payload = object.payload := by
    obtain ⟨hlive, hown⟩ := hs.activation id heq
    obtain ⟨object, hget⟩ := isLive_iff.1 hlive
    obtain ⟨object', hget', hpayload⟩ := h.kept id object hget fun hgone => by
      obtain ⟨other, hother, hmem, -⟩ := h.whole id hgone
      exact hrecords id (Frame.mem_records_of_mem_releasable (hown other hother hmem)) hgone
    exact ⟨object, object', hget, hget', hpayload⟩
  refine ⟨fun id hid => ?_, fun id heq => ?_, ?_, fun value hvalue => ?_,
    fun value hvalue => (hs.held value hvalue).carries h, hs.code⟩
  · obtain ⟨object, hget, htoken⟩ := hs.records id hid
    obtain ⟨object', hget', hpayload⟩ := h.kept id object hget (hrecords id hid)
    exact ⟨object', hget', hpayload ▸ htoken⟩
  · obtain ⟨object, object', hget, hget', -⟩ := hactivation id heq
    refine ⟨isLive_iff.2 ⟨object', hget'⟩, fun other hother hmem => ?_⟩
    rcases h.pending other hother with ⟨earlier, hearlier, hsame⟩ | hnew
    · exact (hs.activation id heq).2 earlier hearlier (hsame ▸ hmem)
    · rw [hnew id hmem] at hget
      cases hget
  · have heffective : heap'.effective frame.activation = heap.effective frame.activation := by
      cases hvalue : frame.activation with
      | fixnum n => rfl
      | ref id =>
        obtain ⟨object, object', hget, hget', hpayload⟩ := hactivation id hvalue
        exact effective_eq_of_payload hget hget' hpayload
    rw [heffective]
    exact hs.effective.carries h
  · rcases hs.stack value hvalue with heq | haccepts
    · exact .inl heq
    · exact .inr (haccepts.carries h)

/-- The later state is sound, and what could be stored in the earlier one can be stored in it. -/
structure Follows (policy : Policy) (roots : Roots) (heap : Heap) (frames : List Frame) (heap' : Heap)
    (frames' : List Frame) : Prop where
  sound : heap'.Sound policy roots frames'
  lasts : ∀ value, heap.Lasts frames value → heap'.Lasts frames' value
  accepts : ∀ value, heap.Accepts policy frames value → heap'.Accepts policy frames' value
  evolves : Evolves roots policy.copies heap heap'

theorem Sound.follows_self (hs : heap.Sound policy roots frames) :
    Follows policy roots heap frames heap frames :=
  ⟨hs, fun _ => id, fun _ => id, .refl⟩

theorem Follows.trans {heap'' : Heap} {frames'' : List Frame}
    (h : Follows policy roots heap frames heap' frames')
    (h' : Follows policy roots heap' frames' heap'' frames'') :
    Follows policy roots heap frames heap'' frames'' :=
  ⟨h'.sound, fun value hv => h'.lasts value (h.lasts value hv), fun value hv => h'.accepts value (h.accepts value hv),
    h.evolves.trans h'.evolves⟩

/-- Objects, frames and anchors of the later state are as before or sound by themselves. -/
theorem Sound.follows (hs : heap.Sound policy roots frames)
    (hevolves : Evolves roots policy.copies heap heap')
    (h : Carries gone heap frames heap' frames') (nodup : (frames'.flatMap (·.records)).Nodup)
    (hobjects : ∀ id object', heap'.get? id = some object' →
      heap.get? id = some object' ∨ object'.Sound policy heap' frames' id)
    (hframes : ∀ frame ∈ frames', (frame ∈ frames ∧ ∀ id ∈ frame.records, id ∉ gone) ∨
      frame.Sound policy heap' frames')
    (hanchors : ∀ id ∈ heap'.anchors roots, id ∈ heap.anchors roots ∨
      heap'.Accepts policy frames' (.ref id)) : Follows policy roots heap frames heap' frames' := by
  refine ⟨⟨hs.coherent.evolves hevolves, nodup, fun id object' hget => ?_, fun frame hframe => ?_, fun id hid => ?_⟩,
    fun value hv => hv.carries h, fun value hv => hv.carries h, hevolves⟩
  · rcases hobjects id object' hget with hold | hnew
    · exact Object.Sound.carries (hs.objects id object' hold) h hget
    · exact hnew
  · rcases hframes frame hframe with ⟨hold, hrecords⟩ | hnew
    · exact Frame.Sound.carries (hs.activations frame hold) h hrecords
    · exact hnew
  · rcases hanchors id hid with hold | hnew
    · exact (hs.anchors id hold).carries h
    · exact hnew

/-- Nothing is given back as long as every object stays, with its payload. -/
theorem Carries.of_kept
    (hkept : ∀ id object, heap.get? id = some object →
      ∃ object', heap'.get? id = some object' ∧ object'.payload = object.payload)
    (hpending : ∀ frame' ∈ frames', (∃ frame ∈ frames, frame'.releasable = frame.releasable) ∨
      ∀ id ∈ frame'.releasable, heap.get? id = none) :
    Carries [] heap frames heap' frames' :=
  ⟨fun id object hget _ => hkept id object hget, fun _ h => (nomatch h), fun _ h => (nomatch h), hpending⟩

/-! ## Changes of the heap -/

theorem Lasts.issued {value : Value} (h : heap.Lasts frames value) : heap.IssuedValue value := by
  intro id hid
  obtain ⟨object, hget⟩ := isLive_iff.1 (h id hid).1
  exact .of_get? hget

theorem Sound.get?_of_mem_releasable (hs : heap.Sound policy roots frames) {frame : Frame}
    (hframe : frame ∈ frames) {id : ObjectId} (hid : id ∈ frame.releasable) :
    ∃ object, heap.get? id = some object ∧ object.payload.isToken = false :=
  (hs.activations frame hframe).records id (Frame.mem_records_of_mem_releasable hid)

theorem admits_of_accepts {object : Object} (hshaped : heap.Shaped policy.copies object)
    (hheld : ∀ value ∈ object.held, heap.Accepts policy frames value)
    (hscope : ∀ value, object.scope = some value → heap.Lasts frames value) :
    heap.Admits policy.copies object := by
  refine ⟨hshaped, fun value hvalue => ?_⟩
  rcases List.mem_append.1 hvalue with hvalue | hvalue
  · exact (hscope value (by simpa using hvalue)).issued
  · exact (hheld value (by simp [Object.held, hvalue])).lasts.issued

/-- A new object that only refers to what lasts. -/
theorem Sound.allocate (hs : heap.Sound policy roots frames) {object : Object} {id : ObjectId}
    (h : Heap.allocate object heap = .ok id heap') (hshaped : heap.Shaped policy.copies object)
    (hheld : ∀ value ∈ object.held, heap.Accepts policy frames value)
    (hscope : ∀ value, object.scope = some value → heap.Lasts frames value)
    (hcode : ∀ method, object.shape.method? = some method → policy.code method.body.code) :
    Follows policy roots heap frames heap' frames ∧ heap'.Lasts frames (.ref id) ∧
      heap'.get? id = some object := by
  have adds := allocate_adds hs.coherent.tidy h
  have hc : Carries [] heap frames heap' frames :=
    .of_kept (fun other found hget => ⟨found, adds.get?_of_some hget, rfl⟩) fun frame hframe => .inl ⟨frame, hframe, rfl⟩
  have hfree : ∀ frame ∈ frames, id ∉ frame.releasable := by
    intro frame hframe hid
    obtain ⟨found, hget, -⟩ := hs.get?_of_mem_releasable hframe hid
    exact adds.unissued (.of_get? hget)
  refine ⟨hs.follows (.single (.allocate (admits_of_accepts hshaped hheld hscope) h)) hc hs.records_nodup
    (fun other found hget => ?_) (fun frame hframe => .inl ⟨hframe, by simp⟩) (fun other hother => .inl ?_),
    .ref (isLive_iff.2 ⟨object, adds.get?_self⟩) hfree, adds.get?_self⟩
  · by_cases heq : other = id
    · rw [heq, adds.get?_self] at hget
      cases hget
      refine .inr
        ⟨fun value hvalue => (hheld value hvalue).carries hc, fun target htarget => ?_, hcode⟩
      obtain ⟨hlive, hfree⟩ := (hscope _ htarget).carries hc target rfl
      exact ⟨hlive, fun frame hframe hmem => absurd hmem (hfree frame hframe)⟩
    · exact .inl (adds.get?_of_ne other heq ▸ hget)
  · simpa only [Heap.anchors, adds.strings_eq, adds.templates_eq] using hother

/-- Giving back an object right after it was made. -/
theorem Sound.withdraw (hs : heap.Sound policy roots frames) {object : Object} {id : ObjectId}
    (h : Heap.allocate object heap = .ok id heap') (admits : heap.Admits policy.copies object)
    (htoken : object.payload.isToken = false) :
    Follows policy roots heap frames (heap'.release id) frames := by
  have adds := allocate_adds hs.coherent.tidy h
  have hget (other : ObjectId) : (heap'.release id).get? other = heap.get? other := by
    rw [get?_release]
    split
    · rename_i heq
      rw [heq, adds.get?_eq_none]
    · exact adds.get?_of_ne other ‹_›
  have hrelease : Change roots policy.copies heap' (heap'.release id) :=
    .release id fun found hfound => by
    rw [adds.get?_self] at hfound
    cases hfound
    exact htoken
  refine hs.follows (.tail (.single (.allocate admits h)) hrelease)
    (.of_kept (fun other found h => ⟨found, by rw [hget, h], rfl⟩) fun frame hframe => .inl ⟨frame, hframe, rfl⟩)
    hs.records_nodup (fun other found h => .inl (by rw [← hget, h]))
    (fun frame hframe => .inl ⟨hframe, by simp⟩) fun other hother => .inl ?_
  simpa [Heap.anchors, adds.strings_eq, adds.templates_eq] using hother

theorem Sound.edit (hs : heap.Sound policy roots frames)
    (hevolves : Evolves roots policy.copies heap heap') {target : ObjectId}
    {edit : Object → Object} {extra : List Value}
    (hextra : ∀ value ∈ extra, heap.Accepts policy frames value)
    (hget : ∀ id, heap'.get? id = if id =
      target then (heap.get? target).map edit else heap.get? id)
    (hedit : ∀ object : Object, object.Edited extra (edit object))
    (hstrings : heap'.strings = heap.strings) (htemplates : heap'.templates = heap.templates) :
    Follows policy roots heap frames heap' frames := by
  have hc : Carries [] heap frames heap' frames := by
    refine .of_kept (fun id object hobject => ?_) fun frame hframe => .inl ⟨frame, hframe, rfl⟩
    by_cases heq : id = target
    · subst heq
      exact ⟨edit object,
        by rw [hget, if_pos rfl, hobject, Option.map_some], (hedit object).payload_eq⟩
    · exact ⟨object, by rw [hget, if_neg heq, hobject], rfl⟩
  refine hs.follows hevolves hc hs.records_nodup (fun id object' hobject' => ?_)
    (fun frame hframe => .inl ⟨hframe, by simp⟩) fun id hid => .inl ?_
  · by_cases heq : id = target
    · have hnew := hobject'
      rw [hget, if_pos heq] at hobject'
      obtain ⟨object, hobject, rfl⟩ := Option.map_eq_some_iff.1 hobject'
      have hold := Object.Sound.carries (hs.objects target object hobject) hc (heq ▸ hnew)
      refine .inr ⟨fun value hvalue => ?_, fun next hnext => ?_, fun method hmethod => ?_⟩
      · simp only [Object.held, List.mem_append, (hedit object).payload_eq] at hvalue
        rcases hvalue with (hvalue | hvalue) | hvalue
        · rcases (hedit object).mem_slots value hvalue with hvalue | hvalue
          · exact hold.held value (by simp [Object.held, hvalue])
          · exact (hextra value hvalue).carries hc
        · rcases (hedit object).mem_parents value hvalue with hvalue | hvalue
          · exact hold.held value (by simp [Object.held, hvalue])
          · exact (hextra value hvalue).carries hc
        · exact hold.held value (by simp [Object.held, hvalue])
      · rw [(hedit object).scope_eq] at hnext
        exact heq ▸ hold.scope next hnext
      · simp only [Shape.method?, (hedit object).behavior_eq] at hmethod
        exact hold.code method hmethod
    · rw [hget, if_neg heq] at hobject'
      exact .inl hobject'
  · simpa only [Heap.anchors, hstrings, htemplates] using hid

theorem Sound.assign (hs : heap.Sound policy roots frames) (target : ObjectId) (index : Nat)
    {value : Value} (hvalue : heap.Accepts policy frames value) :
    Follows policy roots heap frames (heap.update target (·.setSlot index value)) frames := by
  have hextra : ∀ other ∈ [value], heap.Accepts policy frames other := by simpa using hvalue
  refine hs.edit (.single (.assign target index value)) hextra (heap.get?_update target · _)
    (fun object => ?_) ?_ ?_
  · exact ⟨rfl, rfl, rfl, fun _ => Object.mem_set_or, fun _ => .inl⟩
  · unfold update
    split <;> rfl
  · unfold update
    split <;> rfl

theorem Sound.restructure (hs : heap.Sound policy roots frames) (target : ObjectId)
    {extra : List Value} {edit : Object → Object}
    (hedit : ∀ object : Object, object.Edited extra (edit object))
    (hextra : ∀ value ∈ extra, heap.Accepts policy frames value) :
    Follows policy roots heap frames (heap.restructure target edit) frames := by
  refine hs.edit (.single (.restructure target hedit fun value hvalue => (hextra value hvalue).lasts.issued)) hextra
    (heap.get?_restructure target · edit) (fun object => ?_) ?_ ?_
  · exact ⟨(hedit object).scope_eq, (hedit object).payload_eq, (hedit object).behavior_eq,
      (hedit object).mem_slots, (hedit object).mem_parents⟩
  · unfold Heap.restructure update
    simp only
    split <;> rfl
  · unfold Heap.restructure update
    simp only
    split <;> rfl

/-- A change that leaves every object alone. -/
theorem Sound.aside (hs : heap.Sound policy roots frames)
    (hevolves : Evolves roots policy.copies heap heap')
    (hget : ∀ id, heap'.get? id = heap.get? id)
    (hanchors : ∀ id ∈ heap'.anchors roots, id ∈ heap.anchors roots ∨
      heap.Accepts policy frames (.ref id)) : Follows policy roots heap frames heap' frames := by
  have hc : Carries [] heap frames heap' frames :=
    .of_kept (fun id object h => ⟨object, by rw [hget, h], rfl⟩) fun frame hframe => .inl ⟨frame, hframe, rfl⟩
  refine hs.follows hevolves hc hs.records_nodup (fun id object' h => .inl (by rw [← hget, h]))
    (fun frame hframe => .inl ⟨hframe, by simp⟩) fun id hid => ?_
  exact (hanchors id hid).imp_right fun h => h.carries hc

theorem Sound.consult (hs : heap.Sound policy roots frames) {start : ObjectId}
    (hstart : heap.isLive start = true) (name : String) :
    Follows policy roots heap frames (heap.parentLookup roots start name).heap frames := by
  have htraits := hs.anchors roots.fixnumTraits (by simp [Heap.anchors, Roots.ids])
  have hissued : heap.Issued start := .of_get? (get?_object hstart)
  have hchange : Change roots policy.copies heap (heap.parentLookup roots start name).heap :=
    .consult start name hissued (htraits.lasts.issued _ rfl)
  rcases heap.parentLookup_heap roots start name with h | ⟨holder, value, -, h⟩
  · rw [h]
    exact hs.follows_self
  · exact hs.aside (.single hchange) (fun id => by rw [h]; rfl) fun id hid => .inl
      (by rwa [h] at hid)

/-! ## Changes of the frames -/

theorem get?_releaseAll (heap : Heap) (ids : List ObjectId) (other : ObjectId) :
    (heap.releaseAll ids).get? other = if other ∈ ids then none else heap.get? other := by
  unfold releaseAll
  induction ids generalizing heap with
  | nil => simp
  | cons id ids ih =>
    rw [List.foldl_cons, ih, get?_release]
    by_cases heq : other = id <;> by_cases hmem : other ∈ ids <;> simp [heq, hmem]

theorem evolves_releaseAll {ids : List ObjectId}
    (h : ∀ id ∈ ids, ∀ object, heap.get? id = some object → object.payload.isToken = false) :
    Evolves roots policy.copies heap (heap.releaseAll ids) := by
  unfold releaseAll
  induction ids generalizing heap with
  | nil => exact .refl
  | cons id ids ih =>
    rw [List.foldl_cons]
    refine .head (.release id (h id List.mem_cons_self)) (ih fun other hother object hget => ?_)
    rw [get?_release] at hget
    split at hget
    · cases hget
    · exact h other (.tail _ hother) object hget

@[simp] theorem strings_releaseAll (heap : Heap) (ids : List ObjectId) :
    (heap.releaseAll ids).strings = heap.strings := by
  unfold releaseAll
  induction ids generalizing heap with
  | nil => rfl
  | cons id ids ih => rw [List.foldl_cons, ih, strings_release]

@[simp] theorem templates_releaseAll (heap : Heap) (ids : List ObjectId) :
    (heap.releaseAll ids).templates = heap.templates := by
  unfold releaseAll
  induction ids generalizing heap with
  | nil => rfl
  | cons id ids ih => rw [List.foldl_cons, ih, templates_release]

/-- The frames `gone` go and give their records back. -/
theorem Sound.drop (hs : heap.Sound policy roots frames) {gone rest : List Frame}
    (hperm : frames.Perm (gone ++ rest)) :
    Follows policy roots heap frames (heap.releaseAll (gone.flatMap (·.releasable))) rest := by
  have hnodup : ((gone ++ rest).flatMap (·.records)).Nodup :=
    (hperm.flatMap_right _).nodup_iff.1 hs.records_nodup
  rw [List.flatMap_append, List.nodup_append] at hnodup
  obtain ⟨-, hrest, hdisjoint⟩ := hnodup
  have hgone (frame : Frame) (h : frame ∈ gone) : frame ∈ frames :=
    hperm.mem_iff.2 (List.mem_append_left _ h)
  have hstay (frame : Frame) (h : frame ∈ rest) : frame ∈ frames :=
    hperm.mem_iff.2 (List.mem_append_right _ h)
  have hc : Carries (gone.flatMap (·.releasable)) heap frames
      (heap.releaseAll (gone.flatMap (·.releasable))) rest := by
    refine ⟨fun id object hget hid => ⟨object, by rw [get?_releaseAll, if_neg hid, hget], rfl⟩,
      fun id hid => by rw [get?_releaseAll, if_pos hid], fun id hid => ?_,
      fun frame hframe => .inl ⟨frame, hstay frame hframe, rfl⟩⟩
    obtain ⟨frame, hframe, hmem⟩ := List.mem_flatMap.1 hid
    exact ⟨frame, hgone frame hframe, hmem,
      fun other hother => List.mem_flatMap.2 ⟨frame, hframe, hother⟩⟩
  refine hs.follows (evolves_releaseAll fun id hid object hget => ?_) hc hrest (fun id object' hget => ?_)
    (fun frame hframe => .inl ⟨hstay frame hframe, fun id hid hmem => ?_⟩) fun id hid => .inl ?_
  · obtain ⟨frame, hframe, hmem⟩ := List.mem_flatMap.1 hid
    obtain ⟨found, hfound, htoken⟩ := hs.get?_of_mem_releasable (hgone frame hframe) hmem
    rw [hfound] at hget
    cases hget
    exact htoken
  · rw [get?_releaseAll] at hget
    split at hget
    · cases hget
    · exact .inl hget
  · obtain ⟨other, hother, hmem⟩ := List.mem_flatMap.1 hmem
    exact hdisjoint id (List.mem_flatMap.2 ⟨other, hother, Frame.mem_records_of_mem_releasable hmem⟩) id
      (List.mem_flatMap.2 ⟨frame, hframe, hid⟩) rfl
  · simpa [Heap.anchors] using hid

/-- Frames can be forgotten, with their records left where they are, and put in another order. -/
theorem Sound.forget (hs : heap.Sound policy roots frames) (hsub : frames'.Subperm frames) :
    Follows policy roots heap frames heap frames' := by
  obtain ⟨middle, hperm, hsublist⟩ := hsub
  have hmem {frame : Frame} (h : frame ∈ frames') : frame ∈ frames :=
    hsublist.subset (hperm.mem_iff.2 h)
  refine hs.follows .refl (.of_kept (fun id object hget => ⟨object, hget, rfl⟩)
    fun frame hframe => .inl ⟨frame, hmem hframe, rfl⟩) ?_ (fun id object hget => .inl hget)
    (fun frame hframe => .inl ⟨hmem hframe, by simp⟩) fun id hid => .inl hid
  exact (hperm.flatMap_right _).nodup_iff.1 (hs.records_nodup.sublist (hsublist.flatMap _))

/-- The first frame is adjusted. -/
theorem Sound.replace {frame frame' : Frame} {rest : List Frame}
    (hs : heap.Sound policy roots (frame :: rest))
    (h : frame.Adjusted policy heap (frame :: rest) frame') :
    Follows policy roots heap (frame :: rest) heap (frame' :: rest) := by
  have hold := hs.activations frame List.mem_cons_self
  have hc : Carries [] heap (frame :: rest) heap (frame' :: rest) := by
    refine .of_kept (fun id object hget => ⟨object, hget, rfl⟩) fun other hother => ?_
    rcases List.mem_cons.1 hother with rfl | hother
    · rcases h.releasable with heq | hnone
      · exact .inl ⟨frame, List.mem_cons_self, heq⟩
      · exact .inr (by simp [hnone])
    · exact .inl ⟨other, .tail _ hother, rfl⟩
  have hnodup := hs.records_nodup
  rw [List.flatMap_cons] at hnodup
  refine hs.follows .refl hc (by rwa [List.flatMap_cons, h.records_eq]) (fun id object hget => .inl hget)
    (fun other hother => ?_) fun id hid => .inl hid
  rcases List.mem_cons.1 hother with rfl | hother
  · refine .inr ⟨fun id hid => hold.records id (h.records_eq ▸ hid), fun id hid => ?_, ?_, fun value hvalue => ?_,
      fun value hvalue => (h.held value hvalue).carries hc, h.body_eq ▸ hold.code⟩
    · obtain ⟨hlive, hown⟩ := hold.activation id (h.activation_eq ▸ hid)
      refine ⟨hlive, fun other hother hmem => ?_⟩
      rcases List.mem_cons.1 hother with rfl | hother
      · exact hmem
      · -- no other frame has a record of this one
        have hmine := Frame.mem_records_of_mem_releasable (hown other (.tail _ hother) hmem)
        have htheirs := List.mem_flatMap.2 ⟨other, hother, Frame.mem_records_of_mem_releasable hmem⟩
        exact absurd rfl ((List.nodup_append.1 hnodup).2.2 id hmine id htheirs)
    · rw [h.activation_eq]
      exact hold.effective.carries hc
    · rw [h.activation_eq]
      exact (h.stack value hvalue).imp_right fun h => h.carries hc
  · exact .inl ⟨.tail _ hother, by simp⟩

/-- `heap'` is `heap` with new objects under new ids. -/
structure Brings (new : List (ObjectId × Object)) (heap heap' : Heap) : Prop where
  nodup : (new.map (·.1)).Nodup
  unissued : ∀ entry ∈ new, ¬heap.Issued entry.1
  get?_new : ∀ entry ∈ new, heap'.get? entry.1 = some entry.2
  get?_other : ∀ id, id ∉ new.map (·.1) → heap'.get? id = heap.get? id
  strings_eq : heap'.strings = heap.strings
  templates_eq : heap'.templates = heap.templates

theorem Brings.not_mem {new : List (ObjectId × Object)} (hb : Brings new heap heap')
    {id : ObjectId} {object : Object} (hget : heap.get? id = some object) : id ∉ new.map (·.1) := by
  intro hid
  obtain ⟨entry, hentry, rfl⟩ := List.mem_map.1 hid
  exact hb.unissued entry hentry (.of_get? hget)

theorem Brings.isLive {new : List (ObjectId × Object)} (hb : Brings new heap heap') {id : ObjectId}
    (hid : id ∈ new.map (·.1)) : heap'.isLive id = true := by
  obtain ⟨entry, hentry, rfl⟩ := List.mem_map.1 hid
  exact isLive_iff.2 ⟨entry.2, hb.get?_new entry hentry⟩

theorem Brings.carries {new : List (ObjectId × Object)} (hb : Brings new heap heap') {frame : Frame}
    (hown : frame.releasable = new.map (·.1)) : Carries [] heap frames heap' (frame :: frames) := by
  refine .of_kept (fun id object hget => ⟨object, by rw [hb.get?_other id (hb.not_mem hget), hget], rfl⟩)
    fun other hother => ?_
  rcases List.mem_cons.1 hother with rfl | hother
  · refine .inr fun id hid => ?_
    rw [hown] at hid
    cases hget : heap.get? id with
    | none => rfl
    | some object => exact absurd hid (hb.not_mem hget)
  · exact .inl ⟨other, hother, rfl⟩

/-- A new frame with new records, which refer to each other and to what lasts. -/
theorem Sound.enter (hs : heap.Sound policy roots frames)
    (hevolves : Evolves roots policy.copies heap heap') {new : List (ObjectId × Object)}
    (hb : Brings new heap heap') {frame : Frame} (hcaptured : frame.captured = false)
    (hrecords : frame.records = new.map (·.1))
    (htoken : ∀ entry ∈ new, entry.2.payload.isToken = false)
    (hnew : ∀ entry ∈ new, ∀ value ∈ entry.2.held, heap.Accepts policy frames value)
    (hscope : ∀ entry ∈ new, ∀ value, entry.2.scope = some value →
      heap.Lasts frames value ∨ ∃ target ∈ new.map (·.1), value = .ref target)
    (hcode : ∀ entry ∈ new, ∀ method, entry.2.shape.method? = some method →
      policy.code method.body.code)
    (hactivation : ∃ entry ∈ new, frame.activation = .ref entry.1 ∧
      entry.2.payload.receiver?.isSome) (hstack : frame.stack = [])
    (hheld : ∀ value ∈ frame.held, heap.Accepts policy frames value)
    (hbody : policy.code frame.body.code) :
    Follows policy roots heap frames heap' (frame :: frames) := by
  have hown : frame.releasable = new.map (·.1) := by simp [Frame.releasable, hcaptured, hrecords]
  have hc : Carries [] heap frames heap' (frame :: frames) := hb.carries hown
  -- the new ids are in no other frame's records, because those were issued before
  have honly (id : ObjectId) (hid : id ∈ new.map (·.1)) (other : Frame) (hother : other ∈ frame :: frames)
      (hmem : id ∈ other.releasable) : other.releasable = new.map (·.1) := by
    rcases List.mem_cons.1 hother with rfl | hother
    · exact hown
    · obtain ⟨object, hget, -⟩ := hs.get?_of_mem_releasable hother hmem
      exact absurd hid (hb.not_mem hget)
  refine hs.follows hevolves hc ?_ (fun id object' hget => ?_) (fun other hother => ?_)
    fun id hid => .inl ?_
  · rw [List.flatMap_cons, hrecords, List.nodup_append]
    refine ⟨hb.nodup, hs.records_nodup, fun id hid other hother heq => ?_⟩
    obtain ⟨earlier, hearlier, hmem⟩ := List.mem_flatMap.1 hother
    obtain ⟨object, hget, -⟩ := (hs.activations earlier hearlier).records other hmem
    exact hb.not_mem hget (heq ▸ hid)
  · by_cases hid : id ∈ new.map (·.1)
    · obtain ⟨entry, hentry, rfl⟩ := List.mem_map.1 hid
      rw [hb.get?_new entry hentry] at hget
      cases hget
      refine .inr ⟨fun value hvalue => (hnew entry hentry value hvalue).carries hc, fun target htarget => ?_,
        hcode entry hentry⟩
      rcases hscope entry hentry _ htarget with hlasts | ⟨other, hother, heq⟩
      · obtain ⟨hlive, hfree⟩ := hlasts.carries hc target rfl
        exact ⟨hlive, fun other hother hmem => absurd hmem (hfree other hother)⟩
      · cases heq
        exact ⟨hb.isLive hother,
          fun other' hother' hmem => honly target hother other' hother' hmem ▸ hid⟩
    · exact .inl (hb.get?_other id hid ▸ hget)
  · rcases List.mem_cons.1 hother with rfl | hother
    · obtain ⟨entry, hentry, heq, hreceiver⟩ := hactivation
      have hid : entry.1 ∈ new.map (·.1) := List.mem_map.2 ⟨entry, hentry, rfl⟩
      have hget := hb.get?_new entry hentry
      refine .inr ⟨fun id hid => ?_, fun id hid' => ?_, ?_, by simp [hstack],
        fun value hvalue => (hheld value hvalue).carries hc, hbody⟩
      · rw [hrecords] at hid
        obtain ⟨record, hrecord, rfl⟩ := List.mem_map.1 hid
        exact ⟨record.2, hb.get?_new record hrecord, htoken record hrecord⟩
      · rw [heq] at hid'
        cases hid'
        exact ⟨hb.isLive hid, fun other hother hmem => hown ▸ hid⟩
      · obtain ⟨receiver, hreceiver⟩ := Option.isSome_iff_exists.1 hreceiver
        rw [heq, effective_ref, object_of_get? hget, hreceiver, Option.getD_some]
        exact (hnew entry hentry receiver (by simp [Object.held, hreceiver])).carries hc
    · exact .inl ⟨hother, by simp⟩
  · simpa only [Heap.anchors, hb.strings_eq, hb.templates_eq] using hid

end

end Heap

end ProtoVm
