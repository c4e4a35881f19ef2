import ProtoVm.Proofs.Acts

/-!
# Rules

A guarantee relates an earlier state to a later one, and whatever keeps it in each of its parts keeps it as a whole. A
rule for heaps is a guarantee that is kept when one thing is done to a heap, as far as this is permitted: an object is
made, edited or assigned to, a text is listed, or something beside objects and texts changes. So it is kept by all
operations on heaps, by natives and by what users ask for.
-/

namespace ProtoVm

/-- A relation of an earlier state to a later one, and the faults that may come up on the way. -/
structure Guarantee (σ : Type) where
  Holds : σ → σ → Prop
  faults : Fault → Prop
  refl (s : σ) : Holds s s
  trans {s s' s'' : σ} (h : Holds s s') (h' : Holds s' s'') : Holds s s''

/-- Whether it succeeds or fails, the operation keeps the guarantee. -/
def Guarantee.Governs {σ α : Type} (g : Guarantee σ) (x : EStateM Fault σ α) (s : σ) : Prop :=
  Ends x s (fun _ s' => g.Holds s s') fun fault s' => g.faults fault ∧ g.Holds s s'

namespace Guarantee.Governs

variable {σ α β : Type} {g : Guarantee σ} {s : σ}

theorem pure (a : α) : g.Governs (pure a) s := g.refl s

theorem throw {fault : Fault} (h : g.faults fault) : g.Governs (throw fault : EStateM Fault σ α) s := ⟨h, g.refl s⟩

theorem get {f : σ → EStateM Fault σ α} (h : g.Governs (f s) s) : g.Governs (MonadState.get >>= f) s := h

theorem modify_bind {edit : σ → σ} {f : PUnit → EStateM Fault σ α} (h : g.Holds s (edit s))
    (hf : g.Governs (f ⟨⟩) (edit s)) : g.Governs (modify edit >>= f) s := by
  unfold Governs
  rw [ends_bind, ends_modify]
  exact hf.mono (fun _ _ h' => g.trans h h') fun _ _ h' => ⟨h'.1, g.trans h h'.2⟩

theorem modify {edit : σ → σ} (h : g.Holds s (edit s)) : g.Governs (modify edit) s := h

theorem bind {x : EStateM Fault σ α} {f : α → EStateM Fault σ β} (hx : g.Governs x s)
    (hf : ∀ a s', x s = .ok a s' → g.Governs (f a) s') : g.Governs (x >>= f) s := by
  unfold Governs
  rw [ends_bind]
  refine ends_iff.2 ⟨fun a s' hok => ?_, fun fault s' herror => hx.of_error herror⟩
  have hbefore : g.Holds s s' := hx.of_ok hok
  exact (hf a s' hok).mono (fun _ _ h => g.trans hbefore h) fun _ _ h => ⟨h.1, g.trans hbefore h.2⟩

end Guarantee.Governs

/-- What may be done to the objects of a heap. -/
structure Mandate where
  /-- The objects that can be put into the heap as they are. -/
  copies : List Object
  assigns : ObjectId → Prop
  edits : ObjectId → Prop

/-- A guarantee that is kept whenever one thing is done to a heap that is permitted. -/
structure Heap.Rule extends Guarantee Heap, Mandate where
  /-- What methods that are made can run. -/
  bodies : Body → Prop
  /-- Whether texts can be listed. -/
  lists : Prop
  operational {fault : Fault} (h : fault.isOperational = true) : faults fault
  make {object : Object} {id : ObjectId} {heap heap' : Heap} (h : heap.Makes bodies copies object)
    (hok : Heap.allocate object heap = .ok id heap') : Holds heap heap'
  withdraw {object : Object} {id : ObjectId} {heap heap' : Heap} (h : heap.Makes bodies copies object)
    (hok : Heap.allocate object heap = .ok id heap') : Holds heap (heap'.release id)
  assign {id : ObjectId} (h : assigns id) (heap : Heap) (index : Nat) (value : Value) :
    Holds heap (heap.update id (·.setSlot index value))
  edit {id : ObjectId} (h : edits id) (heap : Heap) (edit : Edit) : Holds heap (heap.restructure id edit.apply)
  list (h : lists) (heap : Heap) (t : String) (id : ObjectId) :
    Holds heap { heap with strings := (t, id) :: heap.strings }
  aside {heap heap' : Heap} (hcells : heap'.cells = heap.cells) (hfree : heap'.free = heap.free)
    (hlimit : heap'.limit = heap.limit) (hversion : heap'.version = heap.version)
    (hunit : heap.nextUnit ≤ heap'.nextUnit) (hstrings : heap'.strings = heap.strings) : Holds heap heap'

namespace Heap

/-- Operations on heaps perform acts, and whatever fails in them is no code and nothing that a handler can answer. -/
def Rule.acts (bodies : Body → Prop) (copies : List Object) : Rule where
  Holds := Acts bodies copies
  faults fault := fault.isOperational = true
  refl _ := .refl
  trans := .trans
  copies := copies
  assigns _ := True
  edits _ := True
  bodies := bodies
  lists := True
  operational h := h
  make h hok := .single (.make h hok)
  withdraw _ hok := .single (.withdraw hok)
  assign _ _ index value := .single (.assign _ index value)
  edit _ _ edit := .single (.edit _ edit)
  list _ _ _ _ := .single (.aside rfl rfl rfl (Nat.le_refl _))
  aside hcells hfree hlimit _ hunit _ := .single (.aside hcells hfree hlimit hunit)

namespace Rule

variable {rule : Heap.Rule} {roots : Roots} {heap : Heap}

/-! ## Making objects -/

theorem governs_allocate {object : Object} (h : heap.Makes rule.bodies rule.copies object) :
    rule.Governs (allocate object) heap := by
  refine ends_iff.2 ⟨fun id heap' hok => rule.make h hok, fun fault heap' herror => ?_⟩
  obtain ⟨rfl, rfl⟩ := allocate_error herror
  exact ⟨rule.operational rfl, rule.refl _⟩

theorem governs_copy (id : ObjectId) {edit : Object → Object}
    (hedit : ∀ object, ∃ scope payload, edit object = { object with scope, payload }) :
    rule.Governs (copy id edit) heap := by
  refine .get (governs_allocate ?_)
  obtain ⟨scope, payload, heq⟩ := hedit (heap.object id)
  rw [heq]
  exact .copy id scope payload

theorem governs_clone (id : ObjectId) : rule.Governs (clone id) heap :=
  governs_copy id fun object => ⟨object.scope, object.payload, rfl⟩

theorem governs_cloneWithPayload (id : ObjectId) (payload : Payload) :
    rule.Governs (cloneWithPayload id payload) heap := governs_copy id fun object => ⟨object.scope, payload, rfl⟩

theorem governs_instantiate (template : ObjectId) (scope : Value) : rule.Governs (instantiate template scope) heap :=
  governs_copy template fun object => ⟨some scope, object.payload, rfl⟩

theorem governs_newActivation (method : ObjectId) (scope receiver : Value) :
    rule.Governs (newActivation method scope receiver) heap :=
  governs_copy method fun _ => ⟨some scope, .activation receiver, rfl⟩

theorem governs_newString (s : String) : rule.Governs (roots.newString s) heap :=
  (governs_cloneWithPayload _ _).bind fun _ _ _ => .pure _

theorem governs_newFloat (x : Float) : rule.Governs (roots.newFloat x) heap :=
  (governs_cloneWithPayload _ _).bind fun _ _ _ => .pure _

theorem governs_intern (h : rule.lists) (s : String) : rule.Governs (roots.intern s) heap := by
  refine .get ?_
  split
  · exact .pure _
  · exact (governs_cloneWithPayload _ _).bind fun id heap' _ => .modify_bind (rule.list h heap' s id) (.pure _)

theorem governs_newWithPayload (payload : Payload) : rule.Governs (newWithPayload payload) heap :=
  governs_allocate (.plain payload)

theorem governs_newObject : rule.Governs newObject heap := governs_allocate (.plain .none)

theorem governs_freshShape : rule.Governs freshShape heap := rule.aside rfl rfl rfl rfl (Nat.le_refl _) rfl

theorem governs_newObjectWith {behavior : Behavior}
    (h : ∀ method, behavior = .method method → rule.bodies method.body) :
    rule.Governs (newObjectWith behavior) heap :=
  governs_freshShape.bind fun id _ _ => governs_allocate (.own id h)

theorem governs_newMethod {body : Body} (h : rule.bodies body) (params : List String) (isBlock : Bool) :
    rule.Governs (newMethod body params isBlock) heap := by
  refine governs_freshShape.bind fun bindings _ _ => governs_newObjectWith fun method hmethod => ?_
  cases hmethod
  exact h

theorem governs_template {site : Site} {code : Option Code} (h : rule.bodies ⟨(code.getD {}).finalize, site⟩)
    (kind : ObjectKind) (params : List String) : rule.Governs (template site kind params code) heap := by
  refine .get ?_
  split
  · exact .pure _
  · have hremember (id : ObjectId) (heap : Heap) : rule.Governs
        (do modify fun heap : Heap => { heap with templates := (site, id) :: heap.templates }
            return id) heap := .modify_bind (rule.aside rfl rfl rfl rfl (Nat.le_refl _) rfl) (.pure _)
    cases kind with
    | plain => exact governs_newObject.bind fun id _ _ => hremember id _
    | method => exact (governs_newMethod h params false).bind fun id _ _ => hremember id _
    | block => exact (governs_newMethod h params true).bind fun id _ _ => hremember id _

theorem governs_newBinding (method : Method) (args : List Value) (nil scope : Value) :
    rule.Governs (newBinding method args nil scope) heap := governs_allocate (.binding method args nil scope)

/-- If the second object of a call cannot be made, the first is withdrawn. -/
theorem governs_newRecords (object : ObjectId) (method : Method) (args : List Value) (nil lexical receiver : Value) :
    rule.Governs (newRecords object method args nil lexical receiver) heap := by
  unfold newRecords
  split
  · exact (governs_newActivation object lexical receiver).bind fun _ _ _ => .pure _
  · unfold Guarantee.Governs
    rw [ends_bind]
    refine ends_iff.2 ⟨fun binding middle hbinding => ?_, fun fault heap' herror => ?_⟩
    · have hmake : rule.Holds heap middle := (governs_newBinding method args nil lexical).of_ok hbinding
      rw [ends_bind, ends_releaseOnFault]
      refine ends_iff.2 ⟨fun id heap' hok => ?_, fun fault heap' herror => ?_⟩
      · exact rule.trans hmake ((governs_newActivation object _ receiver).of_ok hok)
      · rw [newActivation_apply] at herror
        obtain ⟨rfl, rfl⟩ := allocate_error herror
        exact ⟨rule.operational rfl, rule.withdraw (.binding method args nil lexical) hbinding⟩
    · exact (governs_newBinding method args nil lexical).of_error herror

end Rule

section

variable {bodies : Body → Prop} {copies : List Object} {heap heap' : Heap} {object : ObjectId} {method : Method}
  {args : List Value} {nil lexical receiver : Value}

theorem acts_newRecords {records : Records}
    (h : newRecords object method args nil lexical receiver heap = .ok records heap') :
    Acts bodies copies heap heap' := by
  have hmakes : (Rule.acts bodies copies).Governs _ heap :=
    Rule.governs_newRecords object method args nil lexical receiver
  exact hmakes.of_ok h

theorem acts_newRecords_error {fault : Fault}
    (h : newRecords object method args nil lexical receiver heap = .error fault heap') :
    fault.isOperational = true ∧ Acts bodies copies heap heap' := by
  have hmakes : (Rule.acts bodies copies).Governs _ heap :=
    Rule.governs_newRecords object method args nil lexical receiver
  exact hmakes.of_error h

theorem newRecords_fault {fault : Fault}
    (h : newRecords object method args nil lexical receiver heap = .error fault heap') :
    fault.isOperational = true := by
  have herror : _ ∧ Acts (fun _ => True) [] heap heap' := acts_newRecords_error h
  exact herror.1

end

namespace Rule

variable {rule : Heap.Rule} {roots : Roots} {heap : Heap}

/-! ## Changing the heap -/

theorem eraseSlot (rule : Heap.Rule) {id : ObjectId} {name : String} (h : heap.hasSlot id name = true → rule.edits id) :
    rule.Holds heap (heap.eraseSlot id name).2 := by
  unfold Heap.eraseSlot
  split
  · exact rule.edit (h ‹_›) heap (.eraseSlot name)
  · exact rule.refl heap

theorem eraseParent (rule : Heap.Rule) {id : ObjectId} {name : String}
    (h : heap.hasParent id name = true → rule.edits id) : rule.Holds heap (heap.eraseParent id name).2 := by
  unfold Heap.eraseParent
  split
  · exact rule.edit (h ‹_›) heap (.eraseParent name)
  · exact rule.refl heap

theorem setSlot (rule : Heap.Rule) {id : ObjectId} {name : String} (h : heap.hasSlot id name = true → rule.assigns id)
    (value : Value) : rule.Holds heap (heap.setSlot id name value).2 := by
  unfold Heap.setSlot
  split
  · rename_i index hindex
    exact rule.assign (h (by simp [hasSlot, Layout.contains, hindex])) heap index value
  · exact rule.refl heap

theorem parentLookup (rule : Heap.Rule) (heap : Heap) (roots : Roots) (start : ObjectId) (name : String) :
    rule.Holds heap (heap.parentLookup roots start name).heap := by
  rcases heap.parentLookup_heap roots start name with heq | ⟨holder, value, -, heq⟩ <;> rw [heq]
  · exact rule.refl heap
  · exact rule.aside rfl rfl rfl rfl (Nat.le_refl _) rfl

theorem slotLookup (rule : Heap.Rule) (heap : Heap) (roots : Roots) (start : ObjectId) (name : String) :
    rule.Holds heap (heap.slotLookup roots start name).heap := by
  unfold Heap.slotLookup
  split
  · exact rule.refl heap
  · exact rule.parentLookup heap roots start name

end Rule

/-! ## The first objects -/

theorem install_cons (target : ObjectId) (native : Native) (natives : List Native) :
    Roots.install target (native :: natives) = (do
      let object ← newObjectWith (.native native)
      modify (·.addSlot target native.selector (.ref object))
      Roots.install target natives) := bind_assoc ..

namespace Rule

variable {rule : Heap.Rule} {roots : Roots} {heap : Heap}

theorem governs_install {target : ObjectId} (h : rule.edits target) (natives : List Native) :
    rule.Governs (Roots.install target natives) heap := by
  induction natives generalizing heap with
  | nil => exact .pure _
  | cons native natives ih =>
    rw [install_cons]
    exact (governs_newObjectWith (by nofun)).bind fun object heap' _ =>
      .modify_bind (rule.edit h heap' (.addSlot native.selector (.ref object))) ih

theorem governs_newPrototype (h : ∀ id, rule.edits id) (traits : ObjectId) (payload : Payload) :
    rule.Governs (Roots.newPrototype traits payload) heap :=
  (governs_newWithPayload payload).bind fun id heap' _ =>
    .modify_bind (rule.edit (h id) heap' (.addParent "traits" (.ref traits))) (.pure _)

theorem governs_create (h : ∀ id, rule.edits id) : rule.Governs Roots.create heap := by
  have hslot {heap : Heap} (target : ObjectId) (name : String) (value : Value) :
      rule.Governs (modify fun heap : Heap => heap.addSlot target name value) heap :=
    .modify (rule.edit (h target) heap (.addSlot name value))
  have hobject {heap : Heap} {β : Type} {f : ObjectId → HeapM β} (hf : ∀ id heap, rule.Governs (f id) heap) :
      rule.Governs (newObject >>= f) heap := governs_newObject.bind fun id heap' _ => hf id heap'
  unfold Roots.create
  refine hobject fun nil _ => hobject fun trueObject _ => hobject fun falseObject _ => ?_
  refine (governs_newObjectWith (by nofun)).bind fun assignment _ _ => ?_
  refine hobject fun fixnumTraits _ => hobject fun floatTraits _ => hobject fun stringTraits _ => ?_
  refine (governs_newPrototype h _ _).bind fun floatPrototype _ _ => ?_
  refine (governs_newPrototype h _ _).bind fun stringPrototype _ _ => ?_
  refine hobject fun interpreter _ => hobject fun primitives _ => (hslot _ _ _).bind fun _ _ _ => ?_
  refine (hslot _ _ _).bind fun _ _ _ => (hslot _ _ _).bind fun _ _ _ => (hslot _ _ _).bind fun _ _ _ => ?_
  refine hobject fun lobby _ => (hslot _ _ _).bind fun _ _ _ => (governs_install (h _) _).bind fun _ _ _ => ?_
  refine (governs_install (h _) _).bind fun _ _ _ => (governs_install (h _) _).bind fun _ _ _ => ?_
  refine (governs_install (h _) _).bind fun _ _ _ => (governs_install (h _) _).bind fun _ _ _ => ?_
  exact (governs_install (h _) _).bind fun _ _ _ => (governs_install (h _) _).bind fun _ _ _ => .pure _

/-! ## Natives -/

theorem governs_mismatch {α : Type} (expected : Expected) (value : Value) :
    rule.Governs (Native.mismatch roots expected value : HeapM α) heap := .get (.throw (rule.operational rfl))

theorem governs_firstArg {args : List Value} (h : args ≠ []) : rule.Governs (Native.firstArg args) heap := by
  obtain ⟨value, rest, rfl⟩ := List.exists_cons_of_ne_nil h
  exact .pure _

theorem governs_toFixnum (value : Value) : rule.Governs (Native.toFixnum roots value) heap := by
  unfold Native.toFixnum
  split
  · exact .pure _
  · exact governs_mismatch _ _

theorem governs_toFloat (value : Value) : rule.Governs (Native.toFloat roots value) heap := by
  refine .get ?_
  split
  · exact .pure _
  · exact governs_mismatch _ _

theorem governs_toText (value : Value) : rule.Governs (Native.toText roots value) heap := by
  refine .get ?_
  split
  · exact .pure _
  · exact governs_mismatch _ _

theorem governs_toNumber (value : Value) : rule.Governs (Native.toNumber roots value) heap := by
  refine .get ?_
  split
  · exact .pure _
  · exact .pure _
  · exact governs_mismatch _ _

theorem governs_widen (value : Value) : rule.Governs (Native.widen roots value) heap := by
  unfold Native.widen
  split
  · exact .pure _
  · exact governs_toFloat _

theorem governs_fixnumResult (op : ArithmeticOp) (a b : Int) : rule.Governs (Native.fixnumResult op a b) heap := by
  unfold Native.fixnumResult
  split
  · exact .pure _
  · exact .throw (rule.operational rfl)

theorem governs_checkDivisor (op : ArithmeticOp) {args : List Value} (h : args ≠ []) :
    rule.Governs (Native.checkDivisor op args) heap := by
  unfold Native.checkDivisor
  split
  · refine (governs_firstArg h).bind fun _ _ _ => ?_
    split
    · exact .throw (rule.operational rfl)
    · exact .pure _
  · exact .pure _

/-- A native that gets as many arguments as it takes makes objects at most. -/
theorem governs_native (native : Native) (receiver : Value) {args : List Value} (h : args.length = native.arity) :
    rule.Governs (native.run roots receiver args) heap := by
  have hanswer {x : HeapM Value} {heap : Heap} (hx : rule.Governs x heap) :
      rule.Governs (do return Reply.answer (← x)) heap := hx.bind fun _ _ _ => .pure _
  have hargs (harity : native.arity ≠ 0) : args ≠ [] := by
    rintro rfl
    exact harity h.symm
  have hfirst {β : Type} {f : Value → HeapM β} {heap : Heap} (harity : native.arity ≠ 0)
      (hf : ∀ value heap, rule.Governs (f value) heap) : rule.Governs (Native.firstArg args >>= f) heap :=
    (governs_firstArg (hargs harity)).bind fun value heap' _ => hf value heap'
  cases native with
  | fixnumArithmetic op =>
    refine (governs_checkDivisor op (hargs Nat.one_ne_zero)).bind fun _ _ _ => (governs_toFixnum receiver).bind
      fun a _ _ => hfirst Nat.one_ne_zero fun _ _ => (governs_toNumber _).bind fun number _ _ => ?_
    cases number with
    | fixnum b => exact hanswer (governs_fixnumResult op a b)
    | float b => exact hanswer (governs_newFloat _)
  | fixnumComparison relation =>
    refine (governs_toFixnum receiver).bind fun a _ _ => hfirst Nat.one_ne_zero fun _ _ =>
      (governs_toNumber _).bind fun number _ _ => ?_
    cases number with
    | fixnum b => exact .pure _
    | float b => exact .pure _
  | floatArithmetic op =>
    exact (governs_toFloat receiver).bind fun a _ _ => hfirst Nat.one_ne_zero fun _ _ =>
      (governs_widen _).bind fun b _ _ => hanswer (governs_newFloat _)
  | floatComparison relation =>
    exact (governs_toFloat receiver).bind fun a _ _ => hfirst Nat.one_ne_zero fun _ _ =>
      (governs_widen _).bind fun b _ _ => .pure _
  | concatenate =>
    exact (governs_toText receiver).bind fun a _ _ => hfirst Nat.one_ne_zero fun _ _ =>
      (governs_toText _).bind fun b _ _ => hanswer (governs_newString _)
  | sameText => exact (governs_toText receiver).bind fun a _ _ => hfirst Nat.one_ne_zero fun b _ => .get (.pure _)
  | textSize =>
    refine (governs_toText receiver).bind fun s _ _ => ?_
    split
    · exact .pure _
    · exact .throw (rule.operational rfl)
  | printString => exact .get (hanswer (governs_newString _))
  | identical | halt | raise => exact hfirst Nat.one_ne_zero fun _ _ => .pure _
  | setHandler =>
    refine hfirst Nat.one_ne_zero fun handler _ => .get ?_
    split
    · exact .pure _
    · exact governs_mismatch _ _
  | restore =>
    obtain ⟨token, value, rfl⟩ := List.length_eq_two.1 h
    exact .pure _

end Rule

end Heap

/-! ## Requests -/

/-- The object that a request edits. One that is to get natives is edited once the first of them has an object. -/
def Request.edited? (heap : Heap) : Request → Option ObjectId
  | addSlot id .. | insertSlot id .. | addParent id .. => some id
  | eraseSlot id name => if heap.hasSlot id name then some id else none
  | eraseParent id name => if heap.hasParent id name then some id else none
  | install id (native :: _) =>
    match Heap.newObjectWith (.native native) heap with
    | .ok .. => some id
    | .error .. => none
  | _ => none

namespace Heap.Rule

/-- The rule permits what the request does to the heap. -/
structure Permits (rule : Heap.Rule) (heap : Heap) (r : Request) : Prop where
  method : ∀ method, r = .newObjectWith (.method method) → rule.bodies method.body
  unit : ∀ body params isBlock, r = .newMethod body params isBlock → rule.bodies body
  copy : ∀ copy, r = .allocate copy → copy ∈ rule.copies
  assign : ∀ target name value, r = .setSlot target name value → rule.assigns target
  edit : ∀ id, r.edited? heap = some id → rule.edits id
  list : ∀ t, r = .intern t → rule.lists

theorem governs_request {rule : Heap.Rule} {heap : Heap} {roots : Roots} {r : Request} (h : rule.Permits heap r) :
    rule.Governs (r.run roots) heap := by
  have href {x : HeapM ObjectId} (hx : rule.Governs x heap) : rule.Governs (do return [Value.ref (← x)]) heap :=
    hx.bind fun _ _ _ => .pure _
  have hvalue {x : HeapM Value} (hx : rule.Governs x heap) : rule.Governs (do return [← x]) heap :=
    hx.bind fun _ _ _ => .pure _
  have hmodify {edit : Heap → Heap} (h : rule.Holds heap (edit heap)) :
      rule.Governs (do modify edit; return ([] : List Value)) heap := .modify_bind h (.pure _)
  cases r with
  | newObject => exact href governs_newObject
  | newObjectWith behavior =>
    exact href (governs_newObjectWith fun method hmethod => h.method method (hmethod ▸ rfl))
  | newMethod body params isBlock => exact href (governs_newMethod (h.unit body params isBlock rfl) params isBlock)
  | allocate copy => exact href (governs_allocate (.held (h.copy copy rfl)))
  | clone id => exact href (governs_clone id)
  | instantiate template scope => exact href (governs_instantiate template scope)
  | cloneWithPayload prototype payload => exact href (governs_cloneWithPayload prototype payload)
  | addSlot target name value => exact hmodify (rule.edit (h.edit target rfl) heap (.addSlot name value))
  | insertSlot target position name value =>
    exact hmodify (rule.edit (h.edit target rfl) heap (.insertSlot position name value))
  | eraseSlot target name => exact hmodify (rule.eraseSlot fun hslot => h.edit target (if_pos hslot))
  | addParent target name value => exact hmodify (rule.edit (h.edit target rfl) heap (.addParent name value))
  | eraseParent target name => exact hmodify (rule.eraseParent fun hparent => h.edit target (if_pos hparent))
  | setSlot target name value => exact hmodify (rule.setSlot (fun _ => h.assign target name value rfl) value)
  | newString s => exact hvalue (governs_newString s)
  | newFloat x => exact hvalue (governs_newFloat x)
  | intern t => exact hvalue (governs_intern (h.list t rfl) t)
  | install target natives =>
    refine Guarantee.Governs.bind ?_ fun _ _ _ => .pure _
    cases natives with
    | nil => exact .pure _
    | cons native natives =>
      rw [install_cons]
      refine (governs_newObjectWith (by nofun)).bind fun object heap' hok => ?_
      have htarget : rule.edits target := h.edit target (by simp only [Request.edited?, hok])
      exact .modify_bind (rule.edit htarget heap' (.addSlot native.selector (.ref object)))
        (governs_install htarget natives)
  | slotLookup start name => exact hmodify (rule.slotLookup heap roots start name)
  | parentLookup start name => exact hmodify (rule.parentLookup heap roots start name)

end Heap.Rule

end ProtoVm
