import ProtoVm.Proofs.SessionSafety

/-!
# What blocks see

The activation of a block leads to the call in which the block was made, so that a search that finds nothing
in the block goes on as the breadth-first search from that call. A search that begins in the call itself
looks into the scope of the call first, and this can make a difference: what the scope hides from the call
is a second definition to the block.
-/

namespace ProtoVm

namespace Heap

variable {heap : Heap} {roots : Roots} {defines : Object → Option Value}

/-! ## Searches -/

theorem enqueue_eq_append (visited queue ids : List ObjectId) :
    ∃ rest, enqueue visited queue ids = queue ++ rest := by
  induction ids generalizing queue with
  | nil => exact ⟨[], (List.append_nil _).symm⟩
  | cons id ids ih =>
    unfold enqueue
    split
    · exact ih queue
    · obtain ⟨rest, hrest⟩ := ih (queue ++ [id])
      exact ⟨id :: rest, by rw [hrest, List.append_assoc, List.singleton_append]⟩

/-- A search that finds nothing in its start and can only go on to one object begins as well there. -/
theorem walk_result_of_neighbours_eq_singleton {id next : ObjectId} (hid : defines (heap.object id) = none)
    (hnext : heap.neighbours roots id = [next]) (hne : next ≠ id) :
    (heap.walk roots id defines).result = (heap.walk roots next defines).result := by
  have hqueue : enqueue [id] [] [next] = [next] := by simp [enqueue, hne]
  have hclosed : heap.Closed roots id [next] [] := by
    intro other hother
    rw [hnext] at hother
    exact .inr (.inl hother)
  have hvisited (other : ObjectId) : other ∈ [id] ↔ other ∈ ([] : List ObjectId) ∨ other = id := by simp
  unfold walk
  rw [walkFrom_cons_of_none hid, hnext, hqueue, ← walkFrom_skip hid hvisited hclosed,
    List.filter_cons_of_pos (by simpa using hne), List.filter_nil]

theorem walk_result_of_some {id : ObjectId} {value : Value} (h : defines (heap.object id) = some value) :
    (heap.walk roots id defines).result = .found id value := by
  unfold walk
  rw [walkFrom_cons_of_some h (by simp)]
  unfold walkFrom
  rfl

/-- A search that has found something ends with it or with a second find. -/
theorem walkFrom_result_of_found {queue visited : List ObjectId} {first : ObjectId} {value : Value} :
    (heap.walkFrom roots defines queue visited (.found first value)).result = .found first value ∨
      ∃ second, (heap.walkFrom roots defines queue visited (.found first value)).result = .ambiguous first second := by
  generalize hresult : Lookup.found first value = result
  fun_induction walkFrom heap roots defines queue visited result with
  | case1 visited result => exact .inl rfl
  | case2 next queue visited val earlier found hdef =>
    cases hresult
    exact .inr ⟨next, rfl⟩
  | case3 next queue visited result found hdef hnew ih => exact absurd hresult.symm (hnew first value)
  | case4 next queue visited result hdef ih => exact ih hresult

/-- The name is missing in `id`. It is in the object `first`, the scope of `id`, and a breadth-first search comes
upon it once more. -/
structure FoundTwice (heap : Heap) (roots : Roots) (id : ObjectId) (name : String) (first : ObjectId) (value : Value)
    (second : ObjectId) : Prop where
  missing : (heap.object id).slot? name = none
  scope : (heap.object id).scope.map roots.startOf = some first
  slot : (heap.object first).slot? name = some value
  again : (heap.walk roots id (·.slot? name)).result = .ambiguous first second

/-- Looking into the scope first matters only if there is a second definition to be found behind other
parents. -/
theorem plainLookup_eq_walk (heap : Heap) (roots : Roots) (id : ObjectId) (name : String) :
    heap.plainLookup roots id name = (heap.walk roots id (·.slot? name)).result ∨
      (heap.object id).parentValues ≠ [] ∧ ∃ first value second, heap.FoundTwice roots id name first value second ∧
        heap.plainLookup roots id name = .found first value := by
  unfold plainLookup
  cases hnear : heap.nearSlot? roots id name with
  | none => exact .inl rfl
  | some near =>
    obtain ⟨holder, value⟩ := near
    cases hid : (heap.object id).slot? name with
    | some found =>
      simp only [nearSlot?, hid, Option.some.injEq, Prod.mk.injEq] at hnear
      obtain ⟨rfl, rfl⟩ := hnear
      exact .inl (walk_result_of_some hid).symm
    | none =>
      simp only [nearSlot?, hid] at hnear
      obtain ⟨scope, hscope, hnear⟩ := Option.bind_eq_some_iff.1 hnear
      obtain ⟨found, hfound, hnear⟩ := Option.bind_eq_some_iff.1 hnear
      cases hnear
      have hne : roots.startOf scope ≠ id := by
        intro heq
        rw [heq, hid] at hfound
        cases hfound
      have hneighbours : heap.neighbours roots id =
          roots.startOf scope :: (heap.object id).parentValues.map roots.startOf := by
        simp [neighbours, Object.edges, hscope]
      -- the scope is the first object that the search passes after `id`
      obtain ⟨rest, hrest⟩ := enqueue_eq_append [id] [roots.startOf scope]
        ((heap.object id).parentValues.map roots.startOf)
      have hwalk : (heap.walk roots id (·.slot? name)).result =
          (heap.walkFrom roots (·.slot? name) rest [roots.startOf scope, id]
            (.found (roots.startOf scope) value)).result := by
        unfold walk
        rw [walkFrom_cons_of_none hid, hneighbours, enqueue, if_neg (by simpa using hne), List.nil_append, hrest,
          List.singleton_append, walkFrom_cons_of_some hfound (by simp)]
      rcases @walkFrom_result_of_found heap roots (·.slot? name) rest [roots.startOf scope, id] (roots.startOf scope)
        value with hend | ⟨second, hend⟩
      · exact .inl (hwalk.trans hend).symm
      · refine .inr ⟨fun hparents => ?_, _, value, second, ⟨hid, by simp [hscope], hfound, hwalk.trans hend⟩, rfl⟩
        rw [hparents, List.map_nil, enqueue, List.self_eq_append_right] at hrest
        rw [hrest, walkFrom] at hend
        cases hend

/-- The name is missing in `id`, and a search can only go on to `next`. -/
structure Leads (heap : Heap) (name : String) (id next : ObjectId) : Prop where
  missing : (heap.object id).slot? name = none
  scope : (heap.object id).scope = some (.ref next)
  parents : (heap.object id).parentValues = []
  ne : next ≠ id

theorem Leads.walk_result {name : String} {id next : ObjectId} (h : heap.Leads name id next) :
    (heap.walk roots id (·.slot? name)).result = (heap.walk roots next (·.slot? name)).result := by
  refine walk_result_of_neighbours_eq_singleton h.missing ?_ h.ne
  simp [neighbours, Object.edges, h.scope, h.parents, Roots.startOf, Value.toId?]

theorem Leads.plainLookup {name : String} {id next : ObjectId} (h : heap.Leads name id next) :
    heap.plainLookup roots id name = (heap.walk roots next (·.slot? name)).result := by
  rw [← h.walk_result]
  exact (heap.plainLookup_eq_walk roots id name).resolve_right fun hfound => hfound.1 h.parents

theorem Leads.of_get? {name : String} {id next : ObjectId} {object : Object} (hget : heap.get? id = some object)
    (hmissing : object.slot? name = none) (hscope : object.scope = some (.ref next))
    (hparents : object.parentValues = []) (hne : next ≠ id) : heap.Leads name id next := by
  rw [← object_of_get? hget] at hmissing hscope hparents
  exact ⟨hmissing, hscope, hparents, hne⟩

end Heap

/-! ## Calls -/

theorem Layout.index?_ofNames_eq_none {names : List String} {name : String} (h : name ∉ names) :
    (Layout.ofNames names).index? name = none := by
  have hfold (names : List String) (layout : Layout) (hnames : name ∉ names) (hlayout : layout.index? name = none) :
      (names.foldl (fun layout name => if layout.contains name then layout else layout.push name) layout).index? name =
        none := by
    induction names generalizing layout with
    | nil => exact hlayout
    | cons other names ih =>
      rw [List.mem_cons, not_or] at hnames
      refine ih _ hnames.2 ?_
      simp only
      split
      · exact hlayout
      · have hother : (name == other) = false := beq_eq_false_iff_ne.2 hnames.1
        unfold Layout.index? at hlayout ⊢
        rw [Layout.push, List.lookup_append, hlayout]
        simp [List.lookup_cons, hother]
  exact hfold names [] h rfl

namespace Heap

variable {heap heap' : Heap} {roots : Roots}

theorem Adds.isLive {object : Object} {id other : ObjectId} (h : heap.Adds object id heap')
    (hlive : heap.isLive other = true) : heap'.isLive other = true := by
  obtain ⟨found, hget⟩ := isLive_iff.1 hlive
  exact isLive_iff.2 ⟨found, h.get?_of_some hget⟩

theorem Adds.ne {object : Object} {id other : ObjectId} (h : heap.Adds object id heap')
    (hlive : heap.isLive other = true) : other ≠ id := by
  rintro rfl
  obtain ⟨found, hget⟩ := isLive_iff.1 hlive
  rw [h.get?_eq_none] at hget
  cases hget

theorem issuedValue_of_isLive {id : ObjectId} (h : heap.isLive id = true) : heap.IssuedValue (.ref id) := by
  rintro _ ⟨⟩
  exact .of_get? (get?_object h)

/-- The activation of a call leads to its scope. -/
theorem activation_leads (roots : Roots) {policy : Policy} (hc : heap.Coherent policy.copies) {object scope id : ObjectId}
    {receiver : Value} (hparents : (heap.object object).parentValues = []) (hlive : heap.isLive scope = true)
    (h : allocate (activationOf (heap.object object) (.ref scope) receiver) heap = .ok id heap') {name : String}
    (hslot : (heap.object object).slot? name = none) :
    Change roots policy.copies heap heap' ∧ heap.Adds (activationOf (heap.object object) (.ref scope) receiver) id heap' ∧
      heap'.Leads name id scope := by
  have hadds := allocate_adds hc.tidy h
  refine ⟨.allocate ⟨activationOf_shaped policy heap object _ receiver, fun value hvalue => ?_⟩ h, hadds,
    .of_get? hadds.get?_self hslot rfl hparents (hadds.ne hlive)⟩
  simp only [Object.edges, activationOf, hparents, Option.toList_some, List.append_nil, List.mem_singleton] at hvalue
  rw [hvalue]
  exact issuedValue_of_isLive hlive

/-- The object with the parameters of a call leads to the scope of the call. -/
theorem binding_leads (roots : Roots) {policy : Policy} (hc : heap.Coherent policy.copies) {object scope id : ObjectId}
    {method : Method} {args : List Value} {nil : Value} (hmethod : (heap.object object).shape.method? = some method)
    (hlive : heap.isLive scope = true) (h : allocate (bindingOf method args nil (.ref scope)) heap = .ok id heap')
    {name : String} (hparam : name ∉ method.params) :
    Change roots policy.copies heap heap' ∧ heap.Adds (bindingOf method args nil (.ref scope)) id heap' ∧
      heap'.Leads name id scope := by
  have hadds := allocate_adds hc.tidy h
  have hmissing : (bindingOf method args nil (.ref scope)).slot? name = none := by
    simp [Object.slot?, bindingOf, Method.bindingLayout, Layout.index?_ofNames_eq_none hparam]
  refine ⟨.allocate ⟨bindingOf_shaped policy hmethod args nil _, fun value hvalue => ?_⟩ h, hadds,
    .of_get? hadds.get?_self hmissing rfl rfl (hadds.ne hlive)⟩
  simp only [Object.edges, bindingOf, Option.toList_some, List.append_nil, List.mem_singleton] at hvalue
  rw [hvalue]
  exact issuedValue_of_isLive hlive

theorem Leads.adds {object : Object} {id : ObjectId} (hadds : heap.Adds object id heap') {name : String}
    {other next : ObjectId} (h : heap.Leads name other next) : heap'.Leads name other next := by
  obtain ⟨found, hget⟩ : ∃ found, heap.get? other = some found := by
    cases hget : heap.get? other with
    | none =>
      have hscope := h.scope
      rw [Heap.object, hget] at hscope
      cases hscope
    | some found => exact ⟨found, rfl⟩
  obtain ⟨hmissing, hscope, hparents, hne⟩ := h
  rw [object_of_get? hget] at hmissing hscope hparents
  exact .of_get? (hadds.get?_of_some hget) hmissing hscope hparents hne

/-- The records of a call lead to the object that encloses it. -/
theorem newRecords_leads (roots : Roots) {policy : Policy} (hc : heap.Coherent policy.copies) {object outer : ObjectId}
    {method : Method} {args : List Value} {nil receiver : Value} {records : Records}
    (hmethod : (heap.object object).shape.method? = some method)
    (hparents : (heap.object object).parentValues = []) (hlive : heap.isLive outer = true)
    (h : newRecords object method args nil (.ref outer) receiver heap = .ok records heap') {name : String}
    (hslot : (heap.object object).slot? name = none) (hparam : name ∉ method.params) :
    Evolves roots policy.copies heap heap' ∧ heap'.isLive records.activation = true ∧ heap'.isLive outer = true ∧
      (heap'.Leads name records.activation outer ∨
        ∃ binding, heap'.Leads name records.activation binding ∧ heap'.Leads name binding outer) := by
  unfold newRecords at h
  split at h
  · cases hactivation : newActivation object (.ref outer) receiver heap with
    | error fault failed =>
      rw [bind_of_error hactivation] at h
      cases h
    | ok id heap₁ =>
      rw [bind_of_ok hactivation] at h
      cases h
      obtain ⟨hchange, hadds, hleads⟩ := activation_leads roots hc hparents hlive hactivation hslot
      exact ⟨.single hchange, isLive_iff.2 ⟨_, hadds.get?_self⟩, hadds.isLive hlive, .inl hleads⟩
  · cases hbinding : newBinding method args nil (.ref outer) heap with
    | error fault failed =>
      rw [bind_of_error hbinding] at h
      cases h
    | ok binding heap₁ =>
      rw [bind_of_ok hbinding] at h
      obtain ⟨hchange, hadds, hleads⟩ := binding_leads roots hc hmethod hlive hbinding hparam
      have hsame : heap₁.object object = heap.object object := by
        cases hget : heap.get? object with
        | none => simp [Heap.object, hget, Shape.method?] at hmethod
        | some found => rw [object_of_get? hget, object_of_get? (hadds.get?_of_some hget)]
      rw [← hsame] at hparents hslot
      cases hactivation : newActivation object (.ref binding) receiver heap₁ with
      | error fault failed => simp [releaseOnFault, hactivation, bind, EStateM.bind] at h
      | ok id heap₂ =>
        simp only [releaseOnFault, hactivation, bind, EStateM.bind] at h
        cases h
        have hbound : heap₁.isLive binding = true := isLive_iff.2 ⟨_, hadds.get?_self⟩
        obtain ⟨hchange', hadds', hleads'⟩ :=
          activation_leads roots (hc.change hchange) hparents hbound hactivation hslot
        exact ⟨.tail (.single hchange) hchange', isLive_iff.2 ⟨_, hadds'.get?_self⟩,
          hadds'.isLive (hadds.isLive hlive), .inr ⟨binding, hleads', hleads.adds hadds'⟩⟩

end Heap

namespace Exec

/-- A call of a block makes records that lead to the enclosing call. -/
theorem ends_callBlock {ctx : Context} {m : Machine} {block outer : ObjectId} {method : Method}
    (hmethod : (m.heap.object block).shape.method? = some method)
    (hscope : (m.heap.object block).scope = some (.ref outer)) (selector : String) (args : List Value)
    (kind : FrameKind) :
    Ends (callBlock ctx block selector args kind) m
      (fun _ m' => ∃ records, Heap.newRecords block method (args.map m.heap.effective) (.ref ctx.roots.nil) (.ref outer)
        (m.heap.effective (.ref outer)) m.heap = .ok records m'.heap ∧ m'.top? = some (.ref records.activation))
      fun _ _ => True := by
  unfold callBlock activate
  simp only [ends_bind, ends_get, hmethod, hscope, Option.getD_some]
  split
  · trivial
  · simp only [ends_bind, ends_get]
    split
    · trivial
    · rw [ends_bind, ends_onHeap]
      exact ends_iff.2 ⟨fun records heap h => ⟨records, h, rfl⟩, fun _ _ _ => trivial⟩

end Exec

namespace Session

variable {plain : Prop} {w : Session}

/-- Looking a name up from the new activation of a block gives what looking it up from the enclosing call gives,
unless the name is in the scope of that call and a second time behind its parents. Then the call finds the
first definition, and the block finds both. -/
theorem blockCall_lookup (hw : w.Reachable plain) {m m' : Machine}
    (hm : Heap.Evolves w.roots w.copies w.heap m.heap) {block outer top : ObjectId} {method : Method}
    (hmethod : (m.heap.object block).shape.method? = some method)
    (hscope : (m.heap.object block).scope = some (.ref outer)) (hlive : m.heap.isLive outer = true)
    (hparents : (m.heap.object block).parentValues = []) {selector : String} {args : List Value} {kind : FrameKind}
    (hcall : Exec.callBlock w.scheduler.context block selector args kind m = .ok () m')
    (htop : m'.top? = some (.ref top)) {name : String} (hslot : (m.heap.object block).slot? name = none)
    (hparam : name ∉ method.params) :
    ((m'.heap.slotLookup w.roots top name).result = (m'.heap.slotLookup w.roots outer name).result ∨
      ∃ first value second, m'.heap.FoundTwice w.roots outer name first value second ∧
        (m'.heap.slotLookup w.roots outer name).result = .found first value ∧
        (m'.heap.slotLookup w.roots top name).result = .ambiguous first second) ∧
    ((m'.heap.object outer).parentValues = [] →
      (m'.heap.slotLookup w.roots top name).result = (m'.heap.slotLookup w.roots outer name).result) := by
  have hs := hw.sound
  have hc : m.heap.Coherent (w.policy plain).copies := hs.heap.coherent.evolves hm
  obtain ⟨records, hrecords, hactivation⟩ := (Exec.ends_callBlock hmethod hscope selector args kind).of_ok hcall
  rw [htop] at hactivation
  cases hactivation
  obtain ⟨hevolves, htop, houter, hleads⟩ :=
    Heap.newRecords_leads w.roots hc hmethod hparents hlive hrecords hslot hparam
  have hc' := hc.evolves hevolves
  have hr' := (hs.remembers.evolves hs.heap.coherent hm).evolves hc hevolves
  have hblock : m'.heap.plainLookup w.roots records.activation name =
      (m'.heap.walk w.roots outer (·.slot? name)).result := by
    rcases hleads with hleads | ⟨binding, hleads, hleads'⟩
    · exact hleads.plainLookup
    · rw [hleads.plainLookup, hleads'.walk_result]
  rw [Heap.slotLookup_result hc' hr' htop, Heap.slotLookup_result hc' hr' houter, hblock]
  rcases m'.heap.plainLookup_eq_walk w.roots outer name with heq | ⟨hsome, first, value, second, htwice, hfound⟩
  · exact ⟨.inl heq.symm, fun _ => heq.symm⟩
  · exact ⟨.inr ⟨first, value, second, htwice, hfound, htwice.again⟩, fun hnone => absurd hnone hsome⟩

end Session

/-! ## A name that is defined twice -/

/-- A call of a block: the call in which the block was made, the new activation and the machine that has
entered it. -/
structure BlockCall where
  block : ObjectId
  method : Method
  outer : ObjectId
  top : ObjectId
  entered : Machine

/-- Calls the block on top of the operands without arguments. -/
def Machine.blockCall? (ctx : Context) (m : Machine) : Option BlockCall := do
  let frame ← m.process.frames.head?
  let block ← m.heap.block? (← frame.stack.head?)
  let method ← (m.heap.object block).shape.method?
  let outer ← (← (m.heap.object block).scope).toId?
  match Exec.callBlock ctx block "value" [] .call m with
  | .ok _ entered =>
    let top ← (← entered.top?).toId?
    return { block, method, outer, top, entered }
  | .error .. => none

theorem Value.eq_ref_of_toId? {value : Value} {id : ObjectId} (h : value.toId? = some id) : value = .ref id := by
  cases value with
  | fixnum n => cases h
  | ref other => rw [Option.some.inj h]

theorem Machine.blockCall?_eq_some {ctx : Context} {m : Machine} {call : BlockCall} (h : m.blockCall? ctx = some call) :
    m.heap.block? (.ref call.block) = some call.block ∧
      (m.heap.object call.block).shape.method? = some call.method ∧
      (m.heap.object call.block).scope = some (.ref call.outer) ∧
      Exec.callBlock ctx call.block "value" [] .call m = .ok () call.entered ∧
      call.entered.top? = some (.ref call.top) := by
  obtain ⟨frame, -, h⟩ := Option.bind_eq_some_iff.1 h
  obtain ⟨value, -, h⟩ := Option.bind_eq_some_iff.1 h
  obtain ⟨block, hblock, h⟩ := Option.bind_eq_some_iff.1 h
  obtain ⟨method, hmethod, h⟩ := Option.bind_eq_some_iff.1 h
  obtain ⟨scope, hscope, h⟩ := Option.bind_eq_some_iff.1 h
  obtain ⟨outer, houter, h⟩ := Option.bind_eq_some_iff.1 h
  split at h
  · rename_i entered hcall
    obtain ⟨activation, hactivation, h⟩ := Option.bind_eq_some_iff.1 h
    obtain ⟨top, htop, h⟩ := Option.bind_eq_some_iff.1 h
    cases h
    rw [Value.eq_ref_of_toId? houter] at hscope
    rw [Value.eq_ref_of_toId? htop] at hactivation
    obtain ⟨rfl, -⟩ := Exec.eq_ref_of_block? hblock
    exact ⟨hblock, hmethod, hscope, hcall, hactivation⟩
  · cases h

namespace Session

/-- A method takes a parameter `x` and inherits another `x`. In its body a block sends `x`. -/
def inheritedTwice : List Line :=
  let block := [.pushSelf] ++ Demo.send "x" .unary 0
  let method := [.push (.object .block [] (some block))] ++ Demo.send "value" .unary 0
  [.push (.object .plain [] none), .push (.text "m:"), .push (.object .method ["x"] (some method)),
    .push (.text "p"), .push (.object .plain [] none), .push (.text "x"), .push (.int 2), .addSlot .normal,
    .addSlot .parent, .addSlot .normal, .push (.int 1)] ++ Demo.send "m:" .keyword 1

/-- The enclosing call finds its parameter, where the block finds two definitions. -/
theorem blockCall_lookup_differs :
    ∃ (w : Session) (process : Process) (call : BlockCall),
      w.Reachable True ∧ process ∈ w.scheduler.pool ∧ call.outer ∈ w.activations ∧
      w.heap.block? (.ref call.block) = some call.block ∧
      (w.heap.object call.block).shape.method? = some call.method ∧
      (w.heap.object call.block).scope = some (.ref call.outer) ∧
      (w.heap.object call.block).parentValues = [] ∧
      Exec.callBlock w.scheduler.context call.block "value" [] .call (w.scheduler.machine process) =
        .ok () call.entered ∧
      call.entered.top? = some (.ref call.top) ∧
      (w.heap.object call.block).slot? "x" = none ∧ "x" ∉ call.method.params ∧
      (call.entered.heap.slotLookup w.roots call.top "x").result ≠
        (call.entered.heap.slotLookup w.roots call.outer "x").result := by
  have htrial : ((rehearsal inheritedTwice 14).any fun w => w.scheduler.pool.any fun process =>
      ((w.scheduler.machine process).blockCall? w.scheduler.context).any fun call =>
        decide (call.outer ∈ w.activations ∧ (w.heap.object call.block).parentValues = [] ∧
          (w.heap.object call.block).slot? "x" = none ∧ "x" ∉ call.method.params ∧
          (call.entered.heap.slotLookup w.roots call.top "x").result ≠
            (call.entered.heap.slotLookup w.roots call.outer "x").result)) = true := by
    decide +kernel
  obtain ⟨w, hw, hpool⟩ := (Option.any_eq_true _ _).1 htrial
  obtain ⟨process, hprocess, hcall⟩ := List.any_eq_true.1 hpool
  obtain ⟨call, hcall, hcheck⟩ := (Option.any_eq_true _ _).1 hcall
  obtain ⟨houter, hparents, hslot, hparam, hdiffers⟩ := of_decide_eq_true hcheck
  obtain ⟨hblock, hmethod, hscope, hentered, htop⟩ := Machine.blockCall?_eq_some hcall
  exact ⟨w, process, call, reachable_of_rehearsal hw, hprocess, houter, hblock, hmethod, hscope, hparents, hentered,
    htop, hslot, hparam, hdiffers⟩

/-- The same block finds `primitives` where its enclosing call finds it. -/
theorem blockCall_lookup_rehearsal :
    ∃ (w : Session) (process : Process) (call : BlockCall),
      w.Reachable True ∧ process ∈ w.scheduler.pool ∧
      (w.heap.object call.block).shape.method? = some call.method ∧
      (w.heap.object call.block).scope = some (.ref call.outer) ∧ w.heap.isLive call.outer = true ∧
      (w.heap.object call.block).parentValues = [] ∧
      Exec.callBlock w.scheduler.context call.block "value" [] .call (w.scheduler.machine process) =
        .ok () call.entered ∧
      call.entered.top? = some (.ref call.top) ∧
      (w.heap.object call.block).slot? "primitives" = none ∧ "primitives" ∉ call.method.params ∧
      (call.entered.heap.object call.outer).parentValues ≠ [] ∧
      (call.entered.heap.slotLookup w.roots call.top "primitives").result =
        (call.entered.heap.slotLookup w.roots call.outer "primitives").result := by
  have htrial : ((rehearsal inheritedTwice 14).any fun w => w.scheduler.pool.any fun process =>
      ((w.scheduler.machine process).blockCall? w.scheduler.context).any fun call =>
        decide (w.heap.isLive call.outer = true ∧ (w.heap.object call.block).parentValues = [] ∧
          (w.heap.object call.block).slot? "primitives" = none ∧ "primitives" ∉ call.method.params ∧
          (call.entered.heap.object call.outer).parentValues ≠ [] ∧
          (call.entered.heap.slotLookup w.roots call.outer "primitives").result =
            (call.entered.heap.walk w.roots call.outer (·.slot? "primitives")).result)) = true := by
    decide +kernel
  obtain ⟨w, hw, hpool⟩ := (Option.any_eq_true _ _).1 htrial
  obtain ⟨process, hprocess, hcall⟩ := List.any_eq_true.1 hpool
  obtain ⟨call, hcall, hcheck⟩ := (Option.any_eq_true _ _).1 hcall
  obtain ⟨hlive, hnone, hslot, hparam, hparents, hwalk⟩ := of_decide_eq_true hcheck
  obtain ⟨-, hmethod, hscope, hentered, htop⟩ := Machine.blockCall?_eq_some hcall
  have hreachable : w.Reachable True := reachable_of_rehearsal hw
  refine ⟨w, process, call, hreachable, hprocess, hmethod, hscope, hlive, hnone, hentered, htop, hslot, hparam, hparents, ?_⟩
  rcases (blockCall_lookup hreachable (m := w.scheduler.machine process) .refl hmethod hscope hlive hnone hentered htop
    hslot hparam).1 with heq | ⟨first, value, second, htwice, hfound, -⟩
  · exact heq
  · rw [hwalk, htwice.again] at hfound
    cases hfound

end Session

end ProtoVm
