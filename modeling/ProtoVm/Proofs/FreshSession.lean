import ProtoVm.Proofs.Mirror
import ProtoVm.Proofs.SessionSafety

/-!
# Sessions without a process

Before the first process is added no object literal has been copied, and every method that there is runs one of
the units that were loaded. Such a heap mirrors itself.
-/

namespace ProtoVm

/-- If the object is a method, it runs one of the units. -/
def Object.From (units : List Body) (object : Object) : Prop :=
  ∀ method, object.shape.method? = some method → method.body ∈ units

namespace Heap

/-- Nothing has run yet. -/
structure Idle (units : List Body) (heap : Heap) : Prop where
  tidy : heap.Tidy
  templates_eq : heap.templates = []
  nextUnit_eq : heap.nextUnit = units.length
  methods : ∀ id object, heap.get? id = some object → object.From units

variable {units : List Body} {heap heap' : Heap}

theorem Idle.object (h : heap.Idle units) (id : ObjectId) : (heap.object id).From units := by
  cases hget : heap.get? id with
  | none =>
    rw [Heap.object, hget]
    intro method hmethod
    cases hmethod
  | some object =>
    rw [object_of_get? hget]
    exact h.methods id object hget

theorem idle_empty (limit : Nat) : (Heap.empty limit).Idle [] :=
  ⟨(coherent_empty limit).tidy, rfl, rfl, by simp [Heap.empty, get?]⟩

theorem nextUnit_allocate {object : Object} {id : ObjectId} (h : allocate object heap = .ok id heap') :
    heap'.nextUnit = heap.nextUnit := by
  unfold allocate at h
  split at h
  · cases h
    rfl
  · split at h
    · cases h
      rfl
    · cases h

theorem Idle.update (h : heap.Idle units) (id : ObjectId) {edit : Object → Object}
    (hedit : ∀ object : Object, (edit object).shape.behavior = object.shape.behavior) :
    (heap.update id edit).Idle units := by
  have htables : (heap.update id edit).templates = heap.templates ∧ (heap.update id edit).nextUnit = heap.nextUnit := by
    unfold Heap.update
    split <;> exact ⟨rfl, rfl⟩
  refine ⟨h.tidy.update id edit, htables.1.trans h.templates_eq, htables.2.trans h.nextUnit_eq,
    fun other object hget => ?_⟩
  rw [get?_update] at hget
  split at hget
  · obtain ⟨before, hbefore, rfl⟩ := Option.map_eq_some_iff.1 hget
    intro method hmethod
    rw [Shape.method?, hedit] at hmethod
    exact h.methods id before hbefore method hmethod
  · exact h.methods other object hget

theorem Idle.restructure (h : heap.Idle units) (id : ObjectId) {extra : List Value} {edit : Object → Object}
    (hedit : ∀ object : Object, object.Edited extra (edit object)) : (heap.restructure id edit).Idle units := by
  have hstamp (object : Object) : ((edit object).stamp heap.nextShape (heap.version + 1)).shape.behavior =
      object.shape.behavior := (hedit object).behavior_eq
  obtain ⟨htidy, htemplates, hunit, hmethods⟩ := h.update id hstamp
  exact ⟨⟨htidy.free_nodup, htidy.free_empty, htidy.size_le⟩, htemplates, hunit, hmethods⟩

/-- The operation leaves an idle heap idle. -/
def KeepsIdle {α : Type} (units : List Body) (x : HeapM α) : Prop :=
  ∀ heap, heap.Idle units → Ends x heap (fun _ heap' => heap'.Idle units) fun _ heap' => heap'.Idle units

namespace KeepsIdle

variable {α β : Type}

theorem pure {a : α} : KeepsIdle units (pure a) := fun _ h => h

theorem bind {x : HeapM α} {f : α → HeapM β} (hx : KeepsIdle units x) (hf : ∀ a, KeepsIdle units (f a)) :
    KeepsIdle units (x >>= f) := by
  intro heap h
  rw [ends_bind]
  exact Ends.mono (hx heap h) (fun a heap' h' => hf a heap' h') fun _ _ h' => h'

theorem modify {edit : Heap → Heap} (h : ∀ heap : Heap, heap.Idle units → (edit heap).Idle units) :
    KeepsIdle units (modify edit) := h

theorem allocate {object : Object} (ho : object.From units) : KeepsIdle units (Heap.allocate object) := by
  intro heap h
  refine ends_iff.2 ⟨fun id heap' hok => ?_, fun fault heap' herror => (allocate_error herror).1 ▸ h⟩
  have hadds := allocate_adds h.tidy hok
  refine ⟨hadds.tidy, hadds.templates_eq.trans h.templates_eq, (nextUnit_allocate hok).trans h.nextUnit_eq,
    fun other object' hget => ?_⟩
  by_cases hother : other = id
  · rw [hother, hadds.get?_self] at hget
    exact Option.some.inj hget ▸ ho
  · exact h.methods other object' (hadds.get?_of_ne other hother ▸ hget)

theorem newObject : KeepsIdle units newObject := .allocate nofun

theorem freshShape : KeepsIdle units freshShape := fun _ h =>
  ⟨⟨h.tidy.free_nodup, h.tidy.free_empty, h.tidy.size_le⟩, h.templates_eq, h.nextUnit_eq, h.methods⟩

theorem newObjectWith {behavior : Behavior} (hb : ∀ method, behavior = .method method → method.body ∈ units) :
    KeepsIdle units (newObjectWith behavior) :=
  freshShape.bind fun _ => .allocate fun method hmethod => hb method (method?_eq_some_iff.1 hmethod)

theorem newMethod {body : Body} (hbody : body ∈ units) (params : List String) (isBlock : Bool) :
    KeepsIdle units (newMethod body params isBlock) := by
  refine freshShape.bind fun id => .newObjectWith fun method hmethod => ?_
  cases hmethod
  exact hbody

theorem copy (id : ObjectId) {edit : Object → Object} (hedit : ∀ object, (edit object).shape = object.shape) :
    KeepsIdle units (copy id edit) := by
  intro heap h
  have ho : (edit (heap.object id)).From units := by
    intro method hmethod
    rw [hedit] at hmethod
    exact h.object id method hmethod
  exact KeepsIdle.allocate ho heap h

theorem cloneWithPayload (id : ObjectId) (payload : Payload) : KeepsIdle units (cloneWithPayload id payload) := by
  refine KeepsIdle.copy id ?_
  exact fun _ => rfl

theorem intern (roots : Roots) (s : String) : KeepsIdle units (roots.intern s) := by
  intro heap h
  unfold Roots.intern
  rw [ends_bind, ends_get]
  split
  · exact h
  · refine (KeepsIdle.cloneWithPayload _ _).bind
      (fun id => KeepsIdle.bind (.modify fun heap h => ?_) fun _ => .pure) heap h
    exact ⟨⟨h.tidy.free_nodup, h.tidy.free_empty, h.tidy.size_le⟩, h.templates_eq, h.nextUnit_eq, h.methods⟩

theorem install (target : ObjectId) (natives : List Native) : KeepsIdle units (Roots.install target natives) := by
  unfold Roots.install
  induction natives with
  | nil => exact .pure
  | cons native natives ih =>
    refine KeepsIdle.bind (KeepsIdle.bind (.newObjectWith nofun) fun object => ?_) fun _ => ih
    exact .modify fun heap h => h.restructure target fun other => other.addSlot_edited _ _

theorem newPrototype (traits : ObjectId) (payload : Payload) : KeepsIdle units (Roots.newPrototype traits payload) := by
  refine KeepsIdle.bind (.allocate nofun) fun id => KeepsIdle.bind (.modify fun heap h => ?_) fun _ => .pure
  exact h.restructure id fun object => object.addParent_edited _ _

end KeepsIdle

theorem keepsIdle_create : KeepsIdle units Roots.create := by
  have hslot (target : ObjectId) (name : String) (value : Value) :
      KeepsIdle units (modify fun heap : Heap => heap.addSlot target name value) :=
    .modify fun heap h => h.restructure target fun object => object.addSlot_edited name value
  unfold Roots.create
  refine KeepsIdle.newObject.bind fun nil => KeepsIdle.newObject.bind fun trueObject => ?_
  refine KeepsIdle.newObject.bind fun falseObject => KeepsIdle.bind (.newObjectWith nofun) fun assignment => ?_
  refine KeepsIdle.newObject.bind fun fixnumTraits => KeepsIdle.newObject.bind fun floatTraits => ?_
  refine KeepsIdle.newObject.bind fun stringTraits => (KeepsIdle.newPrototype _ _).bind fun floatPrototype => ?_
  refine (KeepsIdle.newPrototype _ _).bind fun stringPrototype => KeepsIdle.newObject.bind fun interpreter => ?_
  refine KeepsIdle.newObject.bind fun primitives => (hslot _ _ _).bind fun _ => (hslot _ _ _).bind fun _ => ?_
  refine (hslot _ _ _).bind fun _ => (hslot _ _ _).bind fun _ => KeepsIdle.newObject.bind fun lobby => ?_
  refine (hslot _ _ _).bind fun _ => (KeepsIdle.install _ _).bind fun _ => (KeepsIdle.install _ _).bind fun _ => ?_
  refine (KeepsIdle.install _ _).bind fun _ => (KeepsIdle.install _ _).bind fun _ => ?_
  refine (KeepsIdle.install _ _).bind fun _ => (KeepsIdle.install _ _).bind fun _ => ?_
  exact (KeepsIdle.install _ _).bind fun _ => .pure

theorem Idle.parentLookup (h : heap.Idle units) (roots : Roots) (start : ObjectId) (name : String) :
    (heap.parentLookup roots start name).heap.Idle units := by
  rcases heap.parentLookup_heap roots start name with heq | ⟨holder, value, -, heq⟩ <;> rw [heq]
  · exact h
  · exact ⟨⟨h.tidy.free_nodup, h.tidy.free_empty, h.tidy.size_le⟩, h.templates_eq, h.nextUnit_eq, h.methods⟩

end Heap

theorem Request.keepsIdle_run {units : List Body} (roots : Roots) {r : Request}
    (hmethod : ∀ method, r = .newObjectWith (.method method) → method.body ∈ units)
    (hunit : ∀ body params isBlock, r = .newMethod body params isBlock → body ∈ units)
    (hcopy : ∀ copy, r = .allocate copy → copy.From units) : Heap.KeepsIdle units (r.run roots) := by
  have href {x : HeapM ObjectId} (hx : Heap.KeepsIdle units x) :
      Heap.KeepsIdle units (do return [Value.ref (← x)]) := hx.bind fun _ => .pure
  have hedit {edit : Heap → Heap} (h : ∀ heap : Heap, heap.Idle units → (edit heap).Idle units) :
      Heap.KeepsIdle units (do modify edit; return ([] : List Value)) := (Heap.KeepsIdle.modify h).bind fun _ => .pure
  cases r with
  | newObject => exact href .newObject
  | newObjectWith behavior => exact href (.newObjectWith fun method hm => hmethod method (hm ▸ rfl))
  | newMethod body params isBlock => exact href (.newMethod (hunit body params isBlock rfl) params isBlock)
  | allocate copy => exact href (.allocate (hcopy copy rfl))
  | clone id => exact href (.copy id fun _ => rfl)
  | instantiate template scope =>
    refine href (.copy template ?_)
    exact fun _ => rfl
  | cloneWithPayload prototype payload => exact href (.cloneWithPayload prototype payload)
  | addSlot target name value =>
    exact hedit fun heap h => h.restructure target fun object => object.addSlot_edited name value
  | insertSlot target position name value =>
    exact hedit fun heap h => h.restructure target fun object => object.insertSlot_edited position name value
  | eraseSlot target name =>
    refine hedit fun heap h => ?_
    unfold Heap.eraseSlot
    split
    · exact h.restructure target fun object => object.eraseSlot_edited name
    · exact h
  | addParent target name value =>
    exact hedit fun heap h => h.restructure target fun object => object.addParent_edited name value
  | eraseParent target name =>
    refine hedit fun heap h => ?_
    unfold Heap.eraseParent
    split
    · exact h.restructure target fun object => object.eraseParent_edited name
    · exact h
  | setSlot target name value =>
    refine hedit fun heap h => ?_
    unfold Heap.setSlot
    split
    · exact h.update target fun _ => rfl
    · exact h
  | newString s => exact ((Heap.KeepsIdle.cloneWithPayload _ _).bind fun _ => .pure).bind fun _ => .pure
  | newFloat x => exact ((Heap.KeepsIdle.cloneWithPayload _ _).bind fun _ => .pure).bind fun _ => .pure
  | intern s => exact (Heap.KeepsIdle.intern roots s).bind fun _ => .pure
  | install target natives => exact (Heap.KeepsIdle.install target natives).bind fun _ => .pure
  | slotLookup start name =>
    refine hedit fun heap h => ?_
    unfold Heap.slotLookup
    split
    · exact h
    · exact h.parentLookup roots start name
  | parentLookup start name => exact hedit fun heap h => h.parentLookup roots start name

namespace Session

variable {plain : Prop} {w w' : Session}

/-- No process was added, and the units can be told apart by their numbers. -/
structure Fresh (w : Session) : Prop where
  pool_eq : w.scheduler.pool = []
  idle : w.heap.Idle w.units
  copies : ∀ copy ∈ w.copies, copy.From w.units
  numbered : ∀ body ∈ w.units, ∃ number < w.units.length, body.site = [number]
  written : ∀ body ∈ w.units, body.Written w.units

theorem Fresh.perform (hf : w.Fresh) {r : Request} (h : w.Allows plain r) : (w.perform r).Fresh := by
  have hmethod (method : Method) (hr : r = .newObjectWith (.method method)) : method.body ∈ w.units := by
    rcases h.method method hr with ⟨id, -, hmethod⟩ | ⟨copy, hcopy, hmethod⟩
    · exact hf.idle.object id method hmethod
    · exact hf.copies copy hcopy method hmethod
  have hrun := Request.keepsIdle_run w.roots hmethod h.unit (fun copy hr => hf.copies copy (h.copy copy hr))
    w.heap hf.idle
  unfold Session.perform
  split
  · exact ⟨hf.pool_eq, hrun.of_ok ‹_›, hf.copies, hf.numbered, hf.written⟩
  · exact ⟨hf.pool_eq, hrun.of_error ‹_›, hf.copies, hf.numbered, hf.written⟩

theorem Fresh.load (hf : w.Fresh) (code : Code) :
    Fresh { w with scheduler := (w.scheduler.load code).2, units := (w.scheduler.load code).1 :: w.units } := by
  set unit : Body := (w.scheduler.load code).1 with hunit
  have hsite : unit.site = [w.units.length] := by
    rw [← hf.idle.nextUnit_eq]
    rfl
  have hmore {object : Object} (h : object.From w.units) : object.From (unit :: w.units) :=
    fun method hmethod => .tail _ (h method hmethod)
  refine ⟨hf.pool_eq, ⟨?_, hf.idle.templates_eq, ?_, fun id object hget => ?_⟩, fun copy hcopy => ?_,
    fun body hbody => ?_, fun body hbody => ?_⟩
  · exact ⟨hf.idle.tidy.free_nodup, hf.idle.tidy.free_empty, hf.idle.tidy.size_le⟩
  · exact congrArg (· + 1) hf.idle.nextUnit_eq
  · exact hmore (hf.idle.methods id object hget)
  · exact hmore (hf.copies copy hcopy)
  · rcases List.mem_cons.1 hbody with rfl | hbody
    · exact ⟨w.units.length, by simp, hsite⟩
    · obtain ⟨number, hlt, hnumber⟩ := hf.numbered body hbody
      exact ⟨number, Nat.lt_succ_of_lt hlt, hnumber⟩
  · rcases List.mem_cons.1 hbody with rfl | hbody
    · simp [Body.Written, codeAt?, hsite]
    · obtain ⟨number, hlt, hnumber⟩ := hf.numbered body hbody
      have hwritten := hf.written body hbody
      have hne : unit.site ≠ [number] := by
        rw [hsite]
        simpa using Nat.ne_of_gt hlt
      rw [Body.Written, hnumber] at hwritten ⊢
      simpa [codeAt?, hne] using hwritten

/-- Whatever was done before, a session in which no process was added is as fresh as the first. -/
theorem Reachable.fresh (hw : w.Reachable plain) (h : w.scheduler.outcomes = #[]) : w.Fresh := by
  induction hw with
  | start hs =>
    unfold Scheduler.create at hs
    split at hs
    · rename_i roots heap hcreate
      cases hs
      refine ⟨rfl, (Heap.keepsIdle_create _ (Heap.idle_empty _)).of_ok hcreate, ?_, ?_, ?_⟩ <;> simp
    · cases hs
  | @step w w' hw hstep ih =>
    cases hstep with
    | request r hr =>
      refine (ih ?_).perform hr
      unfold Session.perform at h
      split at h <;> exact h
    | learn _ => exact ⟨(ih h).pool_eq, (ih h).idle, (ih h).copies, (ih h).numbered, (ih h).written⟩
    | copy _ =>
      refine ⟨(ih h).pool_eq, (ih h).idle, fun copy hcopy => ?_, (ih h).numbered, (ih h).written⟩
      rcases List.mem_cons.1 hcopy with rfl | hcopy
      · exact (ih h).idle.object _
      · exact (ih h).copies copy hcopy
    | load code => exact (ih h).load code
    | add _ => simp [Scheduler.addProcess] at h
    | remove id =>
      have hf : w.Fresh := ih (by unfold Scheduler.removeProcess at h; split at h <;> exact h)
      simpa [Scheduler.removeProcess, hf.pool_eq] using hf
    | run limit =>
      have hf : w.Fresh := by
        refine ih ?_
        unfold Scheduler.runOnce at h
        split at h
        · exact h
        · split at h
          · exact h
          · simpa [Scheduler.takeTurn] using h
      simpa [Scheduler.runOnce, hf.pool_eq] using hf
    | tick index =>
      have hf : w.Fresh := by
        refine ih ?_
        unfold Scheduler.tick at h
        split at h
        · split at h
          · exact h
          · simpa using h
        · exact h
      simpa [Scheduler.tick, hf.pool_eq] using hf
    | note event => exact ⟨(ih h).pool_eq, (ih h).idle, (ih h).copies, (ih h).numbered, (ih h).written⟩

end Session

/-! ## A heap that mirrors itself -/

/-- Every object that there was at the start stands for itself. -/
def Pairing.start (base : Heap) : Pairing where
  own _ _ := False
  common a b := a = b ∧ base.Issued a

def Ground.setting (g : Ground) (lone shared : ProcessId) : Setting := { g with lone, shared }

theorem Value.Match.start {base : Heap} {value : Value} (h : base.IssuedValue value) :
    Value.Match (.start base) value value := by
  cases value with
  | fixnum n => exact .fixnum n
  | ref id => exact .ref (.inr ⟨rfl, h id rfl⟩)

theorem Heap.Accepts.issued {policy : Policy} {heap : Heap} {frames : List Frame} {value : Value}
    (h : heap.Accepts policy frames value) : heap.IssuedValue value := by
  intro id hid
  exact .of_get? (Heap.get?_object (h.lasts id hid).1)

namespace Session

variable {plain : Prop} {w : Session}

/-- What the processes of a session find when they begin. -/
def ground (w : Session) (hs : w.Sound plain) : Ground where
  base := w.heap
  roots := w.roots
  units := w.units
  roots_issued id hid := (hs.heap.anchor_accepts hid).issued id rfl
  strings_issued _ id hid :=
    (hs.heap.anchors id (List.mem_append_right _ (List.mem_append_left _ (Heap.mem_of_lookup hid)))).issued id rfl

theorem Fresh.stocks (hf : w.Fresh) (hs : w.Sound plain) : (w.ground hs).Stocks w.heap := by
  have htemplates (site : Site) (id : ObjectId) : w.heap.templates.lookup site ≠ some id := by
    simp [hf.idle.templates_eq]
  refine ⟨hf.idle.tidy, fun id hid => ?_, fun _ _ => rfl, fun _ _ h => h, fun _ _ h => .inl h,
    fun site id h => absurd h (htemplates site id)⟩
  rcases hid with (hid | ⟨s, hid⟩) | ⟨site, hid⟩
  · exact hid
  · exact (w.ground hs).strings_issued s id hid
  · exact absurd hid (htemplates site id)

/-- The tokens that the user made stand for no stack of the process. -/
theorem Fresh.object_match (hf : w.Fresh) (hs : w.Sound plain) {σ : Setting} (hσ : σ.units = w.units) {id : ObjectId}
    {object : Object} (hget : w.heap.get? id = some object)
    (htoken : ∀ owner index, object.payload = .token owner index → owner ≠ σ.lone ∧ owner ≠ σ.shared) :
    Object.Match σ (.start w.heap) object object := by
  have hsound := hs.heap.objects id object hget
  have hvalue (value : Value) (h : value ∈ object.held) : Value.Match (.start w.heap) value value :=
    .start (hsound.held value h).issued
  refine ⟨rfl, rfl, ?_, List.forall₂_same.2 fun value h => hvalue value ?_,
    List.forall₂_same.2 fun value h => hvalue value ?_, ?_, ?_⟩
  · have hmethods := hf.idle.methods id object hget
    unfold Object.From Shape.method? at hmethods
    cases hbehavior : object.shape.behavior with
    | data => exact .data
    | native native => exact .native native
    | assignment => exact .assignment
    | method method =>
      rw [hbehavior] at hmethods
      exact .method _ _ _ _ (hσ ▸ hf.written _ (hmethods method rfl))
  · simp [Object.held, h]
  · simp [Object.held, h]
  · cases hscope : object.scope with
    | none => exact .none
    | some value =>
      refine .some (.start fun target htarget => ?_)
      cases value with
      | fixnum n => cases htarget
      | ref other =>
        cases htarget
        exact .of_get? (Heap.get?_object (hsound.scope _ hscope).1)
  · cases hpayload : object.payload with
    | none => exact .none
    | float x => exact .float x
    | text s => exact .text s
    | activation receiver => exact .activation (hvalue receiver (by simp [Object.held, hpayload, Payload.receiver?]))
    | token owner index => exact .foreign index (htoken owner index hpayload).1 (htoken owner index hpayload).2

/-- The first heap of a session mirrors itself. -/
theorem Fresh.mirror (hf : w.Fresh) (hs : w.Sound plain) {lone shared : ProcessId}
    (htokens : ∀ id object owner index, w.heap.get? id = some object → object.payload = .token owner index →
      owner ≠ lone ∧ owner ≠ shared) :
    Mirror ((w.ground hs).setting lone shared) (.start w.heap) w.heap w.heap := by
  have hpairs {a b : ObjectId} (h : (Pairing.start w.heap).pairs a b) : a = b ∧ w.heap.Issued a := h.resolve_left id
  refine ⟨hf.stocks hs, hf.stocks hs, fun id hid => ⟨rfl, hid⟩, nofun, fun a b hab => ?_, fun a b hab => ?_,
    ⟨fun a b c hac hbc => ?_, fun a b c hab hac => ?_⟩, fun a b hab => ?_, fun s a ha => ?_, fun s a b hb hab => ?_⟩
  · exact ⟨.inl hab.2, .inl (hab.1 ▸ hab.2)⟩
  · obtain ⟨rfl, hissued⟩ := hpairs hab
    exact ⟨hissued, hissued⟩
  · rw [(hpairs hac).1, (hpairs hbc).1]
  · rw [← (hpairs hab).1, ← (hpairs hac).1]
  · obtain ⟨rfl, -⟩ := hpairs hab
    cases hget : w.heap.get? a with
    | none => exact .none
    | some object => exact .some (hf.object_match hs rfl hget fun owner index => htokens a object owner index hget)
  · exact ⟨a, ha, rfl, (w.ground hs).strings_issued s a ha⟩
  · exact (hpairs hab).1 ▸ hb

end Session

end ProtoVm
