import ProtoVm.Proofs.Footprint
import ProtoVm.Proofs.Literals

/-!
# What is not in circulation

The heap keeps some objects in reserve, and no value anywhere names one of them. An operation reaches an object through
a value that names it, or through a slot that the object has. Objects in reserve have no slots, so every operation
leaves them as they are. Only an object literal that comes up for the first time adds to the reserve.
-/

namespace ProtoVm

/-- The objects kept in reserve, each for a literal, and what they have to look like. -/
structure Reserve where
  table : List (Site × ObjectId)
  fits : Site → Object → Prop

/-- The value names no object in reserve. -/
def Reserve.Outside (r : Reserve) (value : Value) : Prop := ∀ entry ∈ r.table, value ≠ .ref entry.2

/-- No value in the object names one in reserve. -/
structure Object.Shuns (r : Reserve) (object : Object) : Prop where
  slots : ∀ value ∈ object.slotValues, r.Outside value
  parents : ∀ value ∈ object.parentValues, r.Outside value
  receiver : ∀ value, object.payload.receiver? = some value → r.Outside value
  scope : ∀ value, object.scope = some value → r.Outside value

/-- No value in the frame, and none of its records, is in reserve. -/
structure Frame.Shuns (r : Reserve) (frame : Frame) : Prop where
  activation : r.Outside frame.activation
  stack : ∀ value ∈ frame.stack, r.Outside value
  receiver : r.Outside frame.receiver
  handler : ∀ value, frame.handler = some value → r.Outside value
  error : ∀ value, frame.kind.error? = some value → r.Outside value
  records : ∀ id ∈ frame.records, r.Outside (.ref id)

structure Heap.Hides (r : Reserve) (roots : Roots) (heap : Heap) : Prop where
  tidy : heap.Tidy
  templates_eq : heap.templates = r.table
  kept : ∀ entry ∈ r.table, ∃ object, heap.get? entry.2 = some object ∧ object.shape.slots = [] ∧ r.fits entry.1 object
  roots : ∀ id ∈ roots.ids, r.Outside (.ref id)
  strings : ∀ entry ∈ heap.strings, r.Outside (.ref entry.2)
  objects : heap.All (·.Shuns r)

structure Machine.Hides (r : Reserve) (roots : Roots) (m : Machine) : Prop where
  heap : m.heap.Hides r roots
  frames : ∀ frame ∈ m.process.ownFrames, frame.Shuns r
  outcome : ∀ outcome, m.process.outcome = some outcome → r.Outside outcome.result

/-- Whether it succeeds or fails, the operation keeps the invariant, and a result of it satisfies `Q`. -/
def Upholds {σ α : Type} (I : σ → Prop) (x : EStateM Fault σ α) (s : σ) (Q : α → Prop) : Prop :=
  Ends x s (fun a s' => I s' ∧ Q a) fun _ s' => I s'

namespace Upholds

variable {σ α β : Type} {I : σ → Prop} {s : σ} {Q : α → Prop}

theorem pure {a : α} (hs : I s) (h : Q a) : Upholds I (pure a) s Q := ⟨hs, h⟩

theorem throw {fault : Fault} (hs : I s) : Upholds I (throw fault : EStateM Fault σ α) s Q := hs

theorem get {f : σ → EStateM Fault σ α} (h : Upholds I (f s) s Q) : Upholds I (MonadState.get >>= f) s Q := h

theorem modify {edit : σ → σ} (h : I (edit s)) : Upholds I (modify edit) s fun _ => True := ⟨h, trivial⟩

theorem bind {x : EStateM Fault σ α} {f : α → EStateM Fault σ β} {R : β → Prop} (hx : Upholds I x s Q)
    (hf : ∀ a s', I s' → Q a → Upholds I (f a) s' R) : Upholds I (x >>= f) s R := by
  unfold Upholds
  rw [ends_bind]
  exact Ends.mono hx (fun a s' h => hf a s' h.1 h.2) fun _ _ h => h

end Upholds

namespace Reserve

variable {r : Reserve}

theorem outside_fixnum (n : Fixnum) : r.Outside (.fixnum n) := fun _ _ h => (nomatch h)

theorem outside_ofInt? {n : Int} {value : Value} (h : Value.ofInt? n = some value) : r.Outside value := by
  obtain ⟨fixnum, -, rfl⟩ := Option.map_eq_some_iff.1 h
  exact outside_fixnum fixnum

end Reserve

/-! ## Objects -/

namespace Object

variable {r : Reserve} {object : Object}

theorem shuns_of_empty {object : Object} (hslots : object.slotValues = []) (hparents : object.parentValues = [])
    (hreceiver : object.payload.receiver? = none) (hscope : object.scope = none) : object.Shuns r :=
  ⟨by simp [hslots], by simp [hparents], by simp [hreceiver], by simp [hscope]⟩

theorem Shuns.held (h : object.Shuns r) {value : Value} (hvalue : value ∈ object.held) : r.Outside value := by
  simp only [Object.held, List.mem_append, Option.mem_toList] at hvalue
  rcases hvalue with (hvalue | hvalue) | hvalue
  · exact h.slots value hvalue
  · exact h.parents value hvalue
  · exact h.receiver value hvalue

theorem Shuns.edges (h : object.Shuns r) {value : Value} (hvalue : value ∈ object.edges) : r.Outside value := by
  simp only [Object.edges, List.mem_append, Option.mem_toList] at hvalue
  exact hvalue.elim (h.scope value) (h.parents value)

theorem Shuns.edited (h : object.Shuns r) {object' : Object} {extra : List Value}
    (hedited : object.Edited extra object') (hextra : ∀ value ∈ extra, r.Outside value) : object'.Shuns r :=
  ⟨fun value hvalue => (hedited.mem_slots value hvalue).elim (h.slots value) (hextra value),
    fun value hvalue => (hedited.mem_parents value hvalue).elim (h.parents value) (hextra value),
    hedited.payload_eq ▸ h.receiver, hedited.scope_eq ▸ h.scope⟩

theorem Shuns.setSlot (h : object.Shuns r) (index : Nat) {value : Value} (hvalue : r.Outside value) :
    (object.setSlot index value).Shuns r := by
  refine { h with slots := fun other hother => ?_ }
  rcases List.mem_or_eq_of_mem_set hother with hother | rfl
  · exact h.slots other hother
  · exact hvalue

end Object

/-! ## The heap -/

namespace Heap

abbrev Upholds {α : Type} (r : Reserve) (roots : Roots) : HeapM α → Heap → (α → Prop) → Prop :=
  ProtoVm.Upholds (Heap.Hides r roots)

variable {r : Reserve} {roots : Roots} {heap heap' : Heap}

namespace Hides

theorem object (hh : heap.Hides r roots) (id : ObjectId) : (heap.object id).Shuns r :=
  hh.objects.object (Object.shuns_of_empty rfl rfl rfl rfl) id

theorem root (hh : heap.Hides r roots) {id : ObjectId} (hid : id ∈ roots.ids) : r.Outside (.ref id) := hh.roots id hid

theorem nil (hh : heap.Hides r roots) : r.Outside (.ref roots.nil) := hh.root (by simp [Roots.ids])

theorem boolean (hh : heap.Hides r roots) (b : Bool) : r.Outside (roots.boolean b) := by
  cases b with
  | false => exact hh.root (by simp [Roots.ids])
  | true => exact hh.root (by simp [Roots.ids])

theorem startOf (hh : heap.Hides r roots) {value : Value} (hvalue : r.Outside value) :
    r.Outside (.ref (roots.startOf value)) := by
  cases value with
  | fixnum n => exact hh.root (by simp [Roots.ids, Roots.startOf, Value.toId?])
  | ref id => exact hvalue

theorem effective (hh : heap.Hides r roots) {value : Value} (hvalue : r.Outside value) :
    r.Outside (heap.effective value) := by
  cases value with
  | fixnum n => exact hvalue
  | ref id =>
    rw [effective_ref]
    cases hreceiver : (heap.object id).payload.receiver? with
    | none => exact hvalue
    | some receiver => exact (hh.object id).receiver receiver hreceiver

theorem effective_all (hh : heap.Hides r roots) {values : List Value} (h : ∀ value ∈ values, r.Outside value) :
    ∀ value ∈ values.map heap.effective, r.Outside value := by
  intro value hvalue
  obtain ⟨source, hsource, rfl⟩ := List.mem_map.1 hvalue
  exact hh.effective (h source hsource)

/-- What has a slot is not in reserve. -/
theorem outside_of_slots (hh : heap.Hides r roots) {id : ObjectId} (h : (heap.object id).shape.slots ≠ []) :
    r.Outside (.ref id) := by
  rintro entry hentry heq
  obtain ⟨object, hget, hslots, -⟩ := hh.kept entry hentry
  obtain rfl := Value.ref.inj heq
  rw [object_of_get? hget] at h
  exact h hslots

theorem outside_of_slot? (hh : heap.Hides r roots) {id : ObjectId} {name : String} {value : Value}
    (h : (heap.object id).slot? name = some value) : r.Outside (.ref id) := by
  refine hh.outside_of_slots fun hslots => ?_
  simp [Object.slot?, hslots, Layout.index?] at h

/-- The tables and what is in reserve stay as they are. -/
theorem change (hh : heap.Hides r roots) (htidy : heap'.Tidy) (hstrings : heap'.strings = heap.strings)
    (htemplates : heap'.templates = heap.templates) (hkept : ∀ entry ∈ r.table, heap'.get? entry.2 = heap.get? entry.2)
    (hobjects : heap'.All (·.Shuns r)) : heap'.Hides r roots :=
  ⟨htidy, htemplates.trans hh.templates_eq, fun entry hentry => hkept entry hentry ▸ hh.kept entry hentry, hh.roots,
    hstrings ▸ hh.strings, hobjects⟩

theorem sameStore (hh : heap.Hides r roots) (h : heap.SameStore heap') : heap'.Hides r roots :=
  hh.change (h.tidy hh.tidy) h.strings_eq h.templates_eq (fun _ _ => h.get?_eq _)
    fun id object hget => hh.objects id object (h.get?_eq id ▸ hget)

theorem issued (hh : heap.Hides r roots) {entry : Site × ObjectId} (hentry : entry ∈ r.table) :
    heap.Issued entry.2 := by
  obtain ⟨object, hget, -⟩ := hh.kept entry hentry
  exact .of_get? hget

theorem outside_of_unissued (hh : heap.Hides r roots) {id : ObjectId} (h : ¬heap.Issued id) : r.Outside (.ref id) := by
  rintro entry hentry heq
  obtain rfl := Value.ref.inj heq
  exact h (hh.issued hentry)

theorem adds (hh : heap.Hides r roots) {object : Object} {id : ObjectId} (h : heap.Adds object id heap')
    (hobject : object.Shuns r) : heap'.Hides r roots := by
  refine hh.change h.tidy h.strings_eq h.templates_eq (fun entry hentry => h.kept (hh.issued hentry)) ?_
  intro other found hget
  by_cases hother : other = id
  · rw [hother, h.get?_self] at hget
    exact Option.some.inj hget ▸ hobject
  · exact hh.objects other found (h.get?_of_ne other hother ▸ hget)

theorem update (hh : heap.Hides r roots) {id : ObjectId} (hid : r.Outside (.ref id)) {edit : Object → Object}
    (hedit : ∀ object : Object, object.Shuns r → (edit object).Shuns r) : (heap.update id edit).Hides r roots := by
  have htables : (heap.update id edit).strings = heap.strings ∧ (heap.update id edit).templates = heap.templates := by
    unfold Heap.update
    split <;> exact ⟨rfl, rfl⟩
  refine hh.change (hh.tidy.update id edit) htables.1 htables.2 (fun entry hentry => ?_) (hh.objects.update hedit id)
  rw [get?_update, if_neg]
  exact fun heq => hid entry hentry (congrArg Value.ref heq.symm)

theorem restructure (hh : heap.Hides r roots) {id : ObjectId} (hid : r.Outside (.ref id)) (edit : Edit)
    (hedit : ∀ value ∈ edit.brought, r.Outside value) : (heap.restructure id edit.apply).Hides r roots := by
  have hstamp (object : Object) (h : object.Shuns r) :
      ((edit.apply object).stamp heap.nextShape (heap.version + 1)).Shuns r :=
    { h.edited (edit.apply_edited object) hedit with }
  exact (hh.update hid hstamp).sameStore ⟨rfl, rfl, rfl, rfl, rfl⟩

/-- A slot that is assigned to is one that the object has. -/
theorem setSlot (hh : heap.Hides r roots) (id : ObjectId) (name : String) {value : Value} (hvalue : r.Outside value) :
    (heap.setSlot id name value).2.Hides r roots := by
  unfold Heap.setSlot
  split
  · rename_i index hindex
    have hid : r.Outside (.ref id) := by
      refine hh.outside_of_slots fun hslots => ?_
      simp [hslots, Layout.index?] at hindex
    exact hh.update hid fun _ h => h.setSlot index hvalue
  · exact hh

theorem releaseAll (hh : heap.Hides r roots) {ids : List ObjectId} (hids : ∀ id ∈ ids, r.Outside (.ref id)) :
    (heap.releaseAll ids).Hides r roots := by
  have hdeeds : Deeds (fun _ => True) [] heap (heap.releaseAll ids) := heap.deeds_releaseAll ids
  refine hh.change (hdeeds.tidy hh.tidy) (by simp) (by simp) (fun entry hentry => ?_) fun id object hget => ?_
  · rw [get?_releaseAll, if_neg]
    exact fun hmem => hids _ hmem entry hentry rfl
  · rw [get?_releaseAll] at hget
    split at hget
    · cases hget
    · exact hh.objects id object hget

/-! ## Searches -/

theorem slotLookup_heap (hh : heap.Hides r roots) (start : ObjectId) (name : String) :
    (heap.slotLookup roots start name).heap.Hides r roots := hh.sameStore (heap.sameStore_slotLookup roots start name)

/-- A slot that is found has an owner, and the owner has a slot. -/
theorem slotLookup (hh : heap.Hides r roots) {start holder : ObjectId} {name : String} {value : Value}
    (h : (heap.slotLookup roots start name).result = .found holder value) :
    r.Outside (.ref holder) ∧ r.Outside value := by
  have hslot : (heap.object holder).slot? name = some value := slot?_of_slotLookup h
  exact ⟨hh.outside_of_slot? hslot, (hh.object holder).slots value (Exec.mem_slotValues_of_slot? hslot)⟩

end Hides

/-! ## Making objects -/

theorem upholds_allocate (hh : heap.Hides r roots) {object : Object} (h : object.Shuns r) :
    Upholds r roots (allocate object) heap fun id => r.Outside (.ref id) := by
  refine ends_iff.2 ⟨fun id heap' hok => ?_, fun fault heap' herror => ?_⟩
  · have hadds := allocate_adds hh.tidy hok
    exact ⟨hh.adds hadds h, hh.outside_of_unissued hadds.unissued⟩
  · rw [(allocate_error herror).1]
    exact hh

theorem upholds_copy (hh : heap.Hides r roots) (id : ObjectId) {edit : Object → Object}
    (hedit : ∀ object : Object, object.Shuns r → (edit object).Shuns r) :
    Upholds r roots (copy id edit) heap fun id => r.Outside (.ref id) :=
  .get (upholds_allocate hh (hedit _ (hh.object id)))

theorem upholds_cloneWithPayload (hh : heap.Hides r roots) (id : ObjectId) {payload : Payload}
    (h : ∀ value, payload.receiver? = some value → r.Outside value) :
    Upholds r roots (cloneWithPayload id payload) heap fun id => r.Outside (.ref id) :=
  upholds_copy hh id fun _ hobject => { hobject with receiver := h }

theorem upholds_instantiate (hh : heap.Hides r roots) (template : ObjectId) {scope : Value} (h : r.Outside scope) :
    Upholds r roots (instantiate template scope) heap fun id => r.Outside (.ref id) := by
  refine upholds_copy hh template fun _ hobject => { hobject with scope := ?_ }
  rintro value ⟨⟩
  exact h

theorem upholds_newActivation (hh : heap.Hides r roots) (method : ObjectId) {scope receiver : Value}
    (hscope : r.Outside scope) (hreceiver : r.Outside receiver) :
    Upholds r roots (newActivation method scope receiver) heap fun id => r.Outside (.ref id) := by
  refine upholds_copy hh method fun _ hobject => { hobject with receiver := ?_, scope := ?_ }
  · rintro value ⟨⟩
    exact hreceiver
  · rintro value ⟨⟩
    exact hscope

theorem upholds_newString (hh : heap.Hides r roots) (s : String) : Upholds r roots (roots.newString s) heap r.Outside :=
  (upholds_cloneWithPayload hh _ (by simp [Payload.receiver?])).bind fun _ _ hh hid => .pure hh hid

theorem upholds_newFloat (hh : heap.Hides r roots) (x : Float) : Upholds r roots (roots.newFloat x) heap r.Outside :=
  (upholds_cloneWithPayload hh _ (by simp [Payload.receiver?])).bind fun _ _ hh hid => .pure hh hid

theorem upholds_intern (hh : heap.Hides r roots) (s : String) : Upholds r roots (roots.intern s) heap r.Outside := by
  refine .get ?_
  split
  · rename_i id hlookup
    obtain ⟨before, after, hstrings, -⟩ := List.lookup_eq_some_iff.1 hlookup
    exact .pure hh (hh.strings (s, id) (by simp [hstrings]))
  · refine (upholds_cloneWithPayload hh _ (by simp [Payload.receiver?])).bind fun id heap' hh' hid => ?_
    refine Upholds.bind (.modify ?_) fun _ _ hh _ => .pure hh hid
    refine ⟨⟨hh'.tidy.free_nodup, hh'.tidy.free_empty, hh'.tidy.size_le⟩, hh'.templates_eq, hh'.kept, hh'.roots,
      fun entry hentry => ?_, hh'.objects⟩
    rcases List.mem_cons.1 hentry with rfl | hentry
    · exact hid
    · exact hh'.strings entry hentry

theorem upholds_newWithPayload (hh : heap.Hides r roots) {payload : Payload} (h : payload.receiver? = none) :
    Upholds r roots (newWithPayload payload) heap fun id => r.Outside (.ref id) :=
  upholds_allocate hh (Object.shuns_of_empty rfl rfl h rfl)

theorem upholds_newObject (hh : heap.Hides r roots) : Upholds r roots newObject heap fun id => r.Outside (.ref id) :=
  upholds_newWithPayload hh rfl

theorem upholds_freshShape (hh : heap.Hides r roots) : Upholds r roots freshShape heap fun _ => True :=
  ⟨hh.sameStore ⟨rfl, rfl, rfl, rfl, rfl⟩, trivial⟩

theorem upholds_newObjectWith (hh : heap.Hides r roots) (behavior : Behavior) :
    Upholds r roots (newObjectWith behavior) heap fun id => r.Outside (.ref id) :=
  (upholds_freshShape hh).bind fun _ _ hh _ => upholds_allocate hh (Object.shuns_of_empty rfl rfl rfl rfl)

theorem upholds_newMethod (hh : heap.Hides r roots) (body : Body) (params : List String) (isBlock : Bool) :
    Upholds r roots (newMethod body params isBlock) heap fun id => r.Outside (.ref id) :=
  (upholds_freshShape hh).bind fun _ _ hh _ => upholds_newObjectWith hh _

theorem upholds_newBinding (hh : heap.Hides r roots) (method : Method) {args : List Value} {nil scope : Value}
    (hargs : ∀ value ∈ args, r.Outside value) (hnil : r.Outside nil) (hscope : r.Outside scope) :
    Upholds r roots (newBinding method args nil scope) heap fun id => r.Outside (.ref id) := by
  refine upholds_allocate hh ⟨fun value hvalue => ?_, by simp, by simp [Payload.receiver?], ?_⟩
  · rcases mem_of_mem_bindingValues hvalue with rfl | hvalue
    · exact hnil
    · exact hargs value hvalue
  · rintro value ⟨⟩
    exact hscope

theorem upholds_newRecords (hh : heap.Hides r roots) (object : ObjectId) (method : Method) {args : List Value}
    {nil lexical receiver : Value} (hargs : ∀ value ∈ args, r.Outside value) (hnil : r.Outside nil)
    (hlexical : r.Outside lexical) (hreceiver : r.Outside receiver) :
    Upholds r roots (newRecords object method args nil lexical receiver) heap
      fun records => ∀ id ∈ records.ids, r.Outside (.ref id) := by
  unfold newRecords
  split
  · refine (upholds_newActivation hh object hlexical hreceiver).bind fun id _ hh hid => .pure hh ?_
    simpa [Records.ids] using hid
  · refine (upholds_newBinding hh method hargs hnil hlexical).bind fun binding heap' hh' hbinding => ?_
    have hactivation := upholds_newActivation hh' object hbinding hreceiver
    refine Upholds.bind (Q := fun id => r.Outside (.ref id)) ?_ fun id _ hh hid => .pure hh ?_
    · refine ends_releaseOnFault.2 (Ends.mono hactivation (fun _ _ h => h) fun _ failed hfailed => ?_)
      exact hfailed.releaseAll (List.forall_mem_singleton.2 hbinding)
    · simpa [Records.ids] using ⟨hid, hbinding⟩

end Heap

/-! ## Natives -/

namespace Native

open Heap

variable {r : Reserve} {roots : Roots} {heap : Heap} {α : Type} {Q : α → Prop}

theorem upholds_mismatch (hh : heap.Hides r roots) (expected : Expected) (value : Value) :
    Heap.Upholds r roots (mismatch roots expected value : HeapM α) heap Q := .get (.throw hh)

theorem upholds_firstArg (hh : heap.Hides r roots) {args : List Value} (hargs : ∀ value ∈ args, r.Outside value) :
    Heap.Upholds r roots (firstArg args) heap r.Outside := by
  unfold firstArg
  split
  · exact .pure hh (hargs _ List.mem_cons_self)
  · exact .throw hh

theorem upholds_toFixnum (hh : heap.Hides r roots) (value : Value) :
    Heap.Upholds r roots (toFixnum roots value) heap fun _ => True := by
  unfold toFixnum
  split
  · exact .pure hh trivial
  · exact upholds_mismatch hh _ _

theorem upholds_toFloat (hh : heap.Hides r roots) (value : Value) :
    Heap.Upholds r roots (toFloat roots value) heap fun _ => True := by
  refine .get ?_
  split
  · exact .pure hh trivial
  · exact upholds_mismatch hh _ _

theorem upholds_toText (hh : heap.Hides r roots) (value : Value) :
    Heap.Upholds r roots (toText roots value) heap fun _ => True := by
  refine .get ?_
  split
  · exact .pure hh trivial
  · exact upholds_mismatch hh _ _

theorem upholds_toNumber (hh : heap.Hides r roots) (value : Value) :
    Heap.Upholds r roots (toNumber roots value) heap fun _ => True := by
  refine .get ?_
  split
  · exact .pure hh trivial
  · exact .pure hh trivial
  · exact upholds_mismatch hh _ _

theorem upholds_widen (hh : heap.Hides r roots) (value : Value) :
    Heap.Upholds r roots (widen roots value) heap fun _ => True := by
  unfold widen
  split
  · exact .pure hh trivial
  · exact upholds_toFloat hh _

theorem upholds_fixnumResult (hh : heap.Hides r roots) (op : ArithmeticOp) (a b : Int) :
    Heap.Upholds r roots (fixnumResult op a b) heap r.Outside := by
  unfold fixnumResult
  split
  · exact .pure hh (Reserve.outside_ofInt? ‹_›)
  · exact .throw hh

theorem upholds_checkDivisor (hh : heap.Hides r roots) (op : ArithmeticOp) {args : List Value}
    (hargs : ∀ value ∈ args, r.Outside value) :
    Heap.Upholds r roots (checkDivisor op args) heap fun _ => True := by
  unfold checkDivisor
  split
  · refine (upholds_firstArg hh hargs).bind fun _ _ hh _ => ?_
    split
    · exact .throw hh
    · exact .pure hh trivial
  · exact .pure hh trivial

/-- The values of the reply are outside. -/
abbrev Open (r : Reserve) (reply : Reply) : Prop := ∀ value ∈ reply.values, r.Outside value

theorem upholds_run (hh : heap.Hides r roots) (native : Native) (receiver : Value) {args : List Value}
    (hargs : ∀ value ∈ args, r.Outside value) :
    Heap.Upholds r roots (native.run roots receiver args) heap (Open r) := by
  have hreply {heap : Heap} (hh : heap.Hides r roots) {value : Value} (hvalue : r.Outside value) :
      Heap.Upholds r roots (return Reply.answer value) heap (Open r) :=
    .pure hh (by simpa [Open, Reply.values] using hvalue)
  have hanswer {x : HeapM Value} {heap : Heap} (hx : Heap.Upholds r roots x heap r.Outside) :
      Heap.Upholds r roots (do return Reply.answer (← x)) heap (Open r) := hx.bind fun _ _ hh => hreply hh
  have hfirst {f : Value → HeapM Reply} {heap : Heap} (hh : heap.Hides r roots)
      (hf : ∀ value (heap : Heap), heap.Hides r roots → r.Outside value →
        Heap.Upholds r roots (f value) heap (Open r)) :
      Heap.Upholds r roots (firstArg args >>= f) heap (Open r) := (upholds_firstArg hh hargs).bind hf
  cases native with
  | fixnumArithmetic op =>
    refine (upholds_checkDivisor hh op hargs).bind fun _ _ hh _ => (upholds_toFixnum hh receiver).bind fun a _ hh _ =>
      hfirst hh fun _ _ hh _ => (upholds_toNumber hh _).bind fun number _ hh _ => ?_
    cases number with
    | fixnum b => exact hanswer (upholds_fixnumResult hh op a b)
    | float b => exact hanswer (upholds_newFloat hh _)
  | fixnumComparison relation =>
    refine (upholds_toFixnum hh receiver).bind fun a _ hh _ => hfirst hh fun _ _ hh _ =>
      (upholds_toNumber hh _).bind fun number _ hh _ => ?_
    cases number with
    | fixnum b => exact hreply hh (hh.boolean _)
    | float b => exact hreply hh (hh.boolean _)
  | floatArithmetic op =>
    exact (upholds_toFloat hh receiver).bind fun a _ hh _ => hfirst hh fun _ _ hh _ =>
      (upholds_widen hh _).bind fun b _ hh _ => hanswer (upholds_newFloat hh _)
  | floatComparison relation =>
    exact (upholds_toFloat hh receiver).bind fun a _ hh _ => hfirst hh fun _ _ hh _ =>
      (upholds_widen hh _).bind fun b _ hh _ => hreply hh (hh.boolean _)
  | concatenate =>
    exact (upholds_toText hh receiver).bind fun a _ hh _ => hfirst hh fun _ _ hh _ =>
      (upholds_toText hh _).bind fun b _ hh _ => hanswer (upholds_newString hh _)
  | sameText =>
    exact (upholds_toText hh receiver).bind fun a _ hh _ => hfirst hh fun b _ hh _ => .get (hreply hh (hh.boolean _))
  | textSize =>
    refine (upholds_toText hh receiver).bind fun s _ hh _ => ?_
    split
    · exact hreply hh (Reserve.outside_ofInt? ‹_›)
    · exact .throw hh
  | printString => exact .get (hanswer (upholds_newString hh _))
  | identical => exact hfirst hh fun _ _ hh _ => hreply hh (hh.boolean _)
  | halt => exact hfirst hh fun _ _ hh hvalue => .pure hh (by simpa [Open, Reply.values] using hvalue)
  | raise => exact hfirst hh fun _ _ hh hvalue => .pure hh (by simpa [Open, Reply.values] using hvalue)
  | setHandler =>
    refine hfirst hh fun handler _ hh hvalue => .get ?_
    split
    · exact .pure hh (by simpa [Open, Reply.values] using hvalue)
    · exact upholds_mismatch hh _ _
  | restore =>
    simp only [run]
    split
    · exact .pure hh (by simpa [Open, Reply.values] using hargs)
    · exact .throw hh

end Native

/-! ## Machines -/

namespace Machine

variable {r : Reserve} {roots : Roots} {m : Machine} {ctx : Context}

namespace Hides

theorem withHeap (hm : m.Hides r roots) {heap : Heap} (h : heap.Hides r roots) : Hides r roots { m with heap } :=
  { hm with heap := h }

theorem withFrames (hm : m.Hides r roots) {frames : List Frame} (h : ∀ frame ∈ frames, frame.Shuns r) :
    Hides r roots { m with process := { m.process with frames } } := by
  refine { hm with frames := fun frame hframe => ?_ }
  rcases List.mem_append.1 hframe with hframe | hparked
  · exact h frame hframe
  · exact hm.frames frame (List.mem_append_right _ hparked)

theorem running (hm : m.Hides r roots) : ∀ frame ∈ m.process.frames, frame.Shuns r :=
  fun frame hframe => hm.frames frame (List.mem_append_left _ hframe)

theorem release (hm : m.Hides r roots) {frames : List Frame} (h : ∀ frame ∈ frames, frame.Shuns r) :
    (m.release frames).Hides r roots := by
  refine { hm with heap := hm.heap.releaseAll fun id hid => ?_ }
  obtain ⟨frame, hframe, hid⟩ := List.mem_flatMap.1 hid
  exact (h frame hframe).records id (Frame.mem_records_of_mem_releasable hid)

theorem unwind (hm : m.Hides r roots) : m.unwind.Hides r roots := by
  have hreleased : (m.release m.process.allFrames).Hides r roots :=
    hm.release fun frame hframe => hm.frames frame (m.process.allFrames_perm.mem_iff.1 hframe)
  exact { hreleased with frames := fun _ hframe => absurd hframe List.not_mem_nil }

theorem conclude (hm : m.Hides r ctx.roots) {value : Value} (hvalue : r.Outside value) {outcome : String → Outcome}
    (houtcome : ∀ display, (outcome display).result = value) : (m.conclude ctx value outcome).Hides r ctx.roots := by
  refine { hm.unwind with frames := fun _ hframe => absurd hframe List.not_mem_nil, outcome := ?_ }
  rintro _ ⟨⟩
  rw [houtcome]
  exact hvalue

theorem finish (hm : m.Hides r ctx.roots) {value : Value} (hvalue : r.Outside value) :
    (m.finish ctx value).Hides r ctx.roots := hm.conclude hvalue fun _ => rfl

theorem finishWithError (hm : m.Hides r ctx.roots) {value : Value} (hvalue : r.Outside value) (cause : Option Fault) :
    (m.finishWithError ctx value cause).Hides r ctx.roots := hm.conclude hvalue fun _ => rfl

theorem terminate (hm : m.Hides r ctx.roots) (fault : Fault) : (m.terminate ctx fault).Hides r ctx.roots := by
  have hunwound : (m.note (.failed m.process.id fault)).unwind.Hides r ctx.roots := unwind { hm with }
  have hmessage := Heap.upholds_newString hunwound.heap fault.message
  unfold Machine.terminate
  simp only
  split
  · obtain ⟨hheap, hvalue⟩ := hmessage.of_ok ‹_›
    exact (hunwound.withHeap hheap).finishWithError hvalue _
  · exact (hunwound.withHeap (hmessage.of_error ‹_›)).finishWithError hunwound.heap.nil _

end Hides

end Machine

theorem Frame.Shuns.push {r : Reserve} {frame : Frame} (h : frame.Shuns r) {value : Value} (hvalue : r.Outside value) :
    (frame.push value).Shuns r := by
  refine { h with stack := fun other hother => ?_ }
  rcases List.mem_cons.1 hother with rfl | hother
  · exact hvalue
  · exact h.stack other hother

theorem Frame.Shuns.shrink {r : Reserve} {frame : Frame} (h : frame.Shuns r) {stack : List Value}
    (hstack : ∀ value ∈ stack, r.Outside value) : Frame.Shuns r { frame with stack } := { h with stack := hstack }

namespace Exec

abbrev Upholds {α : Type} (r : Reserve) (roots : Roots) : Exec α → Machine → (α → Prop) → Prop :=
  ProtoVm.Upholds (Machine.Hides r roots)

variable {r : Reserve} {roots : Roots} {m : Machine} {ctx : Context}

/-! ## Operands -/

theorem upholds_onHeap {α : Type} {x : HeapM α} {Q : α → Prop} (hm : m.Hides r roots)
    (h : Heap.Upholds r roots x m.heap Q) : Upholds r roots (onHeap x) m Q :=
  ends_onHeap.2 (Ends.mono h (fun _ _ h => ⟨hm.withHeap h.1, h.2⟩) fun _ _ h => hm.withHeap h)

theorem upholds_note (hm : m.Hides r roots) (event : ProcessId → Event) :
    Upholds r roots (note event) m fun _ => True := .modify { hm with }

theorem upholds_frame (hm : m.Hides r roots) : Upholds r roots frame m (·.Shuns r) := by
  refine .get ?_
  split
  · rename_i frame callers hframes
    exact .pure hm (hm.running frame (hframes ▸ List.mem_cons_self))
  · exact .throw hm

theorem upholds_updateFrame (hm : m.Hides r roots) {edit : Frame → Frame}
    (hedit : ∀ frame : Frame, frame.Shuns r → (edit frame).Shuns r) :
    Upholds r roots (updateFrame edit) m fun _ => True := by
  have hrunning := hm.running
  unfold Upholds ProtoVm.Upholds Ends updateFrame
  cases hframes : m.process.frames with
  | nil => exact hm
  | cons frame callers =>
    rw [hframes, List.forall_mem_cons] at hrunning
    exact ⟨hm.withFrames (List.forall_mem_cons.2 ⟨hedit frame hrunning.1, hrunning.2⟩), trivial⟩

theorem upholds_push (hm : m.Hides r roots) {value : Value} (hvalue : r.Outside value) :
    Upholds r roots (push value) m fun _ => True := upholds_updateFrame hm fun _ h => h.push hvalue

theorem upholds_pop (hm : m.Hides r roots) : Upholds r roots pop m r.Outside := by
  refine (upholds_frame hm).bind fun frame _ hm hframe => ?_
  have hstack := hframe.stack
  split
  · rename_i value stack heq
    rw [heq, List.forall_mem_cons] at hstack
    exact (upholds_updateFrame hm fun _ h => h.shrink hstack.2).bind fun _ _ hm _ => .pure hm hstack.1
  · exact .throw hm

theorem upholds_popOperands (hm : m.Hides r roots) (argc : Nat) :
    Upholds r roots (popOperands argc) m
      fun operands => r.Outside operands.1 ∧ ∀ value ∈ operands.2, r.Outside value := by
  refine (upholds_frame hm).bind fun frame _ hm hframe => ?_
  have hstack (value : Value) (hvalue : value ∈ frame.stack.drop argc) : r.Outside value :=
    hframe.stack value (List.mem_of_mem_drop hvalue)
  split
  · rename_i receiver stack heq
    rw [heq, List.forall_mem_cons] at hstack
    refine (upholds_updateFrame hm fun _ h => h.shrink hstack.2).bind fun _ _ hm _ => .pure hm ⟨hstack.1, ?_⟩
    exact fun value hvalue => hframe.stack value (List.mem_of_mem_take (List.mem_reverse.1 hvalue))
  · exact .throw hm

theorem upholds_name (hm : m.Hides r roots) (value : Value) : Upholds r roots (name ctx value) m fun _ => True := by
  refine .get ?_
  simp only
  split
  · exact .pure hm trivial
  · exact .throw hm

theorem upholds_names (hm : m.Hides r roots) (value : Option Value) :
    Upholds r roots (value.mapM (name ctx)) m fun _ => True := by
  cases value with
  | none => exact .pure hm trivial
  | some value => exact (upholds_name hm value).bind fun _ _ hm _ => .pure hm trivial

theorem upholds_message (hm : m.Hides r roots) (kind : SendKind) (count : UInt8) :
    Upholds r roots (message ctx kind count) m
      fun message => r.Outside message.receiver ∧ ∀ value ∈ message.args, r.Outside value := by
  have hrest {m : Machine} (hm : m.Hides r roots) (selector : Value) (parent : Option Value) :
      Upholds r roots
        (do let operands ← popOperands (kind.argCount count)
            let selector ← name ctx selector
            let parent ← parent.mapM (name ctx)
            note (.sent · selector operands.1)
            return (⟨operands.1, selector, parent, operands.2⟩ : Message)) m
        fun message => r.Outside message.receiver ∧ ∀ value ∈ message.args, r.Outside value :=
    (upholds_popOperands hm _).bind fun operands _ hm hoperands => (upholds_name hm selector).bind
      fun selector _ hm _ => (upholds_names hm parent).bind fun parent _ hm _ => (upholds_note hm _).bind
        fun _ _ hm _ => .pure hm hoperands
  refine (upholds_pop hm).bind fun selector _ hm _ => ?_
  simp only
  split
  · refine Upholds.bind (Q := fun _ => True) ?_ fun parent _ hm _ => hrest hm selector parent
    exact (upholds_pop hm).bind fun parent _ hm _ => .pure hm trivial
  · exact hrest hm selector none

/-! ## Calls and errors -/

theorem upholds_activate (hm : m.Hides r ctx.roots) (object : ObjectId) (method : Method) (selector : String)
    {receiver lexical : Value} (hreceiver : r.Outside receiver) (hlexical : r.Outside lexical) {args : List Value}
    (hargs : ∀ value ∈ args, r.Outside value) {kind : FrameKind}
    (hkind : ∀ value, kind.error? = some value → r.Outside value) :
    Upholds r ctx.roots (activate ctx object method selector receiver lexical args kind) m fun _ => True := by
  unfold activate
  split
  · exact .throw hm
  · refine .get ?_
    split
    · exact .throw hm
    · have hrecords := Heap.upholds_newRecords hm.heap object method (hm.heap.effective_all hargs) hm.heap.nil hlexical
        hreceiver
      refine (upholds_onHeap hm hrecords).bind fun records _ hm hrecords => ?_
      refine (upholds_note hm _).bind fun _ _ hm _ => .modify (hm.withFrames (List.forall_mem_cons.2 ⟨?_, hm.running⟩))
      exact ⟨hrecords _ List.mem_cons_self, by simp, hreceiver, by simp, hkind, hrecords⟩

theorem upholds_callBlock (hm : m.Hides r ctx.roots) (block : ObjectId) (selector : String) {args : List Value}
    (hargs : ∀ value ∈ args, r.Outside value) {kind : FrameKind}
    (hkind : ∀ value, kind.error? = some value → r.Outside value) :
    Upholds r ctx.roots (callBlock ctx block selector args kind) m fun _ => True := by
  have hlexical : r.Outside ((m.heap.object block).scope.getD (.ref ctx.roots.nil)) := by
    cases hscope : (m.heap.object block).scope with
    | none => exact hm.heap.nil
    | some scope => exact (hm.heap.object block).scope scope hscope
  refine .get ?_
  simp only
  split
  · exact .throw hm
  · exact upholds_activate hm _ _ _ (hm.heap.effective hlexical) hlexical hargs hkind

theorem upholds_leave (hm : m.Hides r roots) : Upholds r roots leave m fun _ => True := by
  have hrunning := hm.running
  refine .modify ?_
  split
  · exact hm
  · rename_i frame callers hframes
    rw [hframes, List.forall_mem_cons] at hrunning
    exact (hm.withFrames hrunning.2).release (by simpa using hrunning.1)

theorem upholds_returnTop (hm : m.Hides r ctx.roots) : Upholds r ctx.roots (returnTop ctx) m fun _ => True := by
  refine (upholds_frame hm).bind fun frame _ hm hframe => ?_
  split
  · rename_i error hkind
    have herror : r.Outside error := hframe.error error (by rw [hkind]; rfl)
    exact (upholds_leave hm).bind fun _ _ hm _ => (upholds_note hm _).bind fun _ _ hm _ =>
      .modify (hm.finishWithError herror none)
  · have hvalue : r.Outside (frame.stack.head?.getD (.ref ctx.roots.nil)) := by
      cases hstack : frame.stack with
      | nil => exact hm.heap.nil
      | cons value stack => exact hframe.stack value (hstack ▸ List.mem_cons_self)
    have heffective := hm.heap.effective hvalue
    refine .get ((upholds_leave hm).bind fun _ _ hm _ => .get ?_)
    split
    · exact .modify (hm.finish heffective)
    · exact upholds_push hm heffective

theorem upholds_suspend (hm : m.Hides r roots) : Upholds r roots suspend m fun _ => True := by
  refine ⟨{ hm with frames := fun frame hframe => hm.frames frame ?_ }, trivial⟩
  exact (suspend_perm m.process).mem_iff.1 hframe

theorem upholds_raise (hm : m.Hides r ctx.roots) {value : Value} (hvalue : r.Outside value) (cause : Option Fault) :
    Upholds r ctx.roots (raise ctx value cause) m fun _ => True := by
  refine .get ?_
  split
  · exact (upholds_note hm _).bind fun _ _ hm _ => .modify (hm.finishWithError hvalue cause)
  · refine (upholds_suspend hm).bind fun index _ hm _ =>
      (upholds_onHeap hm (Heap.upholds_newWithPayload hm.heap rfl)).bind fun token _ hm htoken =>
        (upholds_note hm _).bind fun _ _ hm _ => upholds_callBlock hm _ _ (fun other hother => ?_) ?_
    · have hother := List.mem_of_mem_take hother
      simp only [List.mem_cons, List.not_mem_nil, or_false] at hother
      rcases hother with rfl | rfl
      · exact hvalue
      · exact htoken
    · rintro _ ⟨⟩
      exact hvalue

theorem upholds_restore (hm : m.Hides r roots) (token : Value) {value : Value} (hvalue : r.Outside value) :
    Upholds r roots (restore token value) m fun _ => True := by
  refine .get ?_
  split
  · -- the rest stands in a join point behind the first exit
    dsimp only
    split
    · exact .throw hm
    · split
      · exact .throw hm
      · rename_i frames process htake
        obtain ⟨hparked, rfl⟩ := takeParked_eq_some htake
        have hall (frame : Frame) (hframe : frame ∈ frames ++ (m.process.parked.set _ none).flatMap (·.getD [])) :
            frame.Shuns r :=
          hm.frames frame (List.mem_append_right _ ((flatMap_set_none_perm hparked).mem_iff.2 hframe))
        refine (upholds_note hm _).bind fun _ m' hm' _ => ?_
        refine Upholds.bind (.modify ?_) fun _ _ hm _ => upholds_push hm hvalue
        have hrunning (frame : Frame) (hframe : frame ∈ m.process.frames.reverse) : frame.Shuns r :=
          hm.running frame (List.mem_reverse.1 hframe)
        have hreleased := hm'.release hrunning
        exact { hreleased with frames := hall, outcome := hm.outcome }
  · exact .throw hm

/-! ## Sends -/

theorem upholds_lookup (hm : m.Hides r ctx.roots) (value : Value) (name : String) :
    Upholds r ctx.roots (lookup ctx value name) m
      fun result => ∀ holder found, result = .found holder found → r.Outside found :=
  ⟨{ hm with heap := hm.heap.slotLookup_heap _ name }, fun _ _ hfound => (hm.heap.slotLookup hfound).2⟩

theorem upholds_resolve (hm : m.Hides r ctx.roots) (receiver : Value) (selector : String) (parent : Option String) :
    Upholds r ctx.roots (resolve ctx receiver selector parent) m
      fun result => ∀ holder found, result = .found holder found → r.Outside found := by
  cases parent with
  | none => exact upholds_lookup hm receiver selector
  | some parent =>
    refine .get ?_
    split
    · exact upholds_lookup hm _ selector
    · exact .throw hm
    · exact .throw hm

theorem upholds_assign (hm : m.Hides r roots) (holder : ObjectId) (selector : String) {receiver : Value}
    (hreceiver : r.Outside receiver) {args : List Value} (hargs : ∀ value ∈ args, r.Outside value) :
    Upholds r roots (assign holder selector receiver args) m fun _ => True := by
  unfold assign
  split
  · have harg := hm.heap.effective (hargs _ List.mem_cons_self)
    have hself := hm.heap.effective hreceiver
    refine .get (.get (Upholds.bind (Q := fun _ => True) (upholds_onHeap hm ?_) fun ok _ hm _ => ?_))
    · exact ⟨hm.heap.setSlot holder _ harg, trivial⟩
    · cases ok with
      | true => exact upholds_push hm hself
      | false => exact .throw hm
  · exact .throw hm

theorem upholds_follow (hm : m.Hides r ctx.roots) {reply : Reply} (h : Native.Open r reply) :
    Upholds r ctx.roots (follow ctx reply) m fun _ => True := by
  cases reply with
  | answer value => exact upholds_push hm (h value List.mem_cons_self)
  | halt value =>
    exact (upholds_note hm _).bind fun _ _ hm _ => .modify (hm.finish (h value List.mem_cons_self))
  | raise value => exact upholds_raise hm (h value List.mem_cons_self) none
  | handler block =>
    refine upholds_updateFrame hm fun frame hframe => ?_
    have hset : Frame.Shuns r { frame with handler := some block } := by
      refine { hframe with handler := ?_ }
      rintro _ ⟨⟩
      exact h block List.mem_cons_self
    exact hset.push hm.heap.nil
  | restore token value => exact upholds_restore hm token (h value (by simp [Reply.values]))

theorem upholds_callNative (hm : m.Hides r ctx.roots) (native : Native) (selector : String) (receiver : Value)
    {args : List Value} (hargs : ∀ value ∈ args, r.Outside value) :
    Upholds r ctx.roots (callNative ctx native selector receiver args) m fun _ => True := by
  unfold callNative
  split
  · exact .throw hm
  · refine .get (.get ?_)
    exact (upholds_onHeap hm (native.upholds_run hm.heap _ (hm.heap.effective_all hargs))).bind
      fun reply _ hm hreply => upholds_follow hm hreply

theorem upholds_apply (hm : m.Hides r ctx.roots) (holder : ObjectId) (selector : String) {value receiver : Value}
    (hvalue : r.Outside value) (hreceiver : r.Outside receiver) {args : List Value}
    (hargs : ∀ value ∈ args, r.Outside value) :
    Upholds r ctx.roots (apply ctx holder value receiver selector args) m fun _ => True := by
  have hself := hm.heap.effective hreceiver
  refine .get ?_
  split
  · exact upholds_assign hm holder selector hreceiver hargs
  · exact upholds_callNative hm _ selector receiver hargs
  · split
    · exact .get (upholds_push hm (hm.heap.effective hvalue))
    · exact .get (upholds_activate hm _ _ _ hself hself hargs (by simp [FrameKind.error?]))
  · exact .get (upholds_push hm (hm.heap.effective hvalue))

theorem upholds_deliver (hm : m.Hides r ctx.roots) {message : Message} (hreceiver : r.Outside message.receiver)
    (hargs : ∀ value ∈ message.args, r.Outside value) :
    Upholds r ctx.roots (deliver ctx message) m fun _ => True := by
  refine (upholds_resolve hm _ _ _).bind fun result _ hm hresult => ?_
  cases result with
  | found holder value => exact upholds_apply hm holder _ (hresult holder value rfl) hreceiver hargs
  | missing => exact .throw hm
  | ambiguous first second => exact (upholds_note hm _).bind fun _ _ hm _ => .throw hm

theorem upholds_dispatch (hm : m.Hides r ctx.roots) {message : Message} (hreceiver : r.Outside message.receiver)
    (hargs : ∀ value ∈ message.args, r.Outside value) :
    Upholds r ctx.roots (dispatch ctx message.receiver message.selector message.parent message.args) m
      fun _ => True := by
  rw [dispatch_eq]
  refine .get ?_
  split
  · exact upholds_callBlock hm _ _ hargs (by simp [FrameKind.error?])
  · exact upholds_deliver hm hreceiver hargs

/-! ## Instructions -/

theorem upholds_addition (hm : m.Hides r roots) :
    Upholds r roots (addition ctx) m fun operands => r.Outside operands.1 ∧ r.Outside operands.2.2 :=
  (upholds_pop hm).bind fun _ _ hm hvalue => (upholds_pop hm).bind fun slot _ hm _ => (upholds_pop hm).bind
    fun _ _ hm htarget => (upholds_name hm slot).bind fun _ _ hm _ => .pure hm ⟨htarget, hvalue⟩

theorem upholds_addSlot (hm : m.Hides r roots) (kind : SlotKind) :
    Upholds r roots (addSlot ctx kind) m fun _ => True := by
  rw [addSlot_eq]
  refine (upholds_addition hm).bind fun operands m hm h => ?_
  rcases operands with ⟨target, name, value⟩
  cases target with
  | fixnum n => exact .throw hm
  | ref id =>
    have hbrought : ∀ other ∈ [m.heap.effective value], r.Outside other := by simpa using hm.heap.effective h.2
    refine .get (Upholds.bind (upholds_onHeap hm (.modify ?_)) fun _ _ hm _ => upholds_push hm h.1)
    cases kind with
    | normal => exact hm.heap.restructure h.1 (.addSlot name _) hbrought
    | parent => exact hm.heap.restructure h.1 (.addParent name _) hbrought

/-- A literal that is no object makes a number or a text. -/
theorem upholds_literal (hm : m.Hides r ctx.roots) {kind : LiteralKind} (hkind : kind ≠ .object) (index : UInt8) :
    Upholds r ctx.roots (literal ctx kind index) m r.Outside := by
  unfold literal
  split
  · exact .pure hm hm.heap.nil
  · exact .pure hm (hm.heap.root (by simp [Roots.ids]))
  · refine (upholds_frame hm).bind fun frame m' hm' _ => ?_
    have hlift : Upholds r ctx.roots (liftExcept (frame.body.code.literal index.toNat)) m' fun _ => True :=
      ends_liftExcept.2 ⟨fun _ _ => ⟨hm', trivial⟩, fun _ _ => hm'⟩
    refine hlift.bind fun literal _ hm _ => ?_
    dsimp only
    split
    · exact .throw hm
    · rename_i hsame
      split
      · split
        · exact .pure hm (Reserve.outside_ofInt? ‹_›)
        · exact .throw hm
      · exact upholds_onHeap hm (Heap.upholds_newFloat hm.heap _)
      · exact upholds_onHeap hm (Heap.upholds_intern hm.heap _)
      · exact absurd (not_not.1 hsame).symm hkind

theorem upholds_execute (hm : m.Hides r ctx.roots) {i : Instruction} (hi : ∀ index, i ≠ .pushLiteral .object index) :
    Upholds r ctx.roots (execute ctx i) m fun _ => True := by
  cases i with
  | pushSelf => exact upholds_updateFrame hm fun _ h => h.push h.activation
  | pushLiteral kind index =>
    have hkind : kind ≠ .object := fun heq => hi index (heq ▸ rfl)
    exact (upholds_literal hm hkind index).bind fun _ _ hm hvalue => upholds_push hm hvalue
  | pop => exact (upholds_pop hm).bind fun _ _ hm _ => .pure hm trivial
  | send kind count =>
    rw [show execute ctx (.send kind count) = _ from send_eq kind count]
    exact (upholds_message hm kind count).bind fun message _ hm h => upholds_dispatch hm h.1 h.2
  | returnTop => exact upholds_returnTop hm
  | addSlot kind => exact upholds_addSlot hm kind

end Exec

end ProtoVm
