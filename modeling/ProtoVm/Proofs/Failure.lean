import ProtoVm.Proofs.Confinement
import ProtoVm.Proofs.Handlers
import ProtoVm.Proofs.History

/-!
# What follows from a failed instruction

A fault ends its process, or the process is suspended and its innermost handler runs instead. Either way the process is
left complete, with the cause on record if it has ended, and nothing happens to the other processes.
-/

namespace ProtoVm

/-- How many objects a call of the method takes. -/
def Method.recordCount (method : Method) : Nat := if method.params.isEmpty then 1 else 2

namespace Heap

variable {heap heap' : Heap} {object : Object} {id : ObjectId} {value : Value} {fault : Fault}

/-! ## Room for objects -/

/-- How many more objects the heap can take. -/
def room (heap : Heap) : Nat := heap.free.length + (heap.limit - heap.cells.size)

theorem room_of_allocate (h : allocate object heap = .ok id heap') : heap'.room + 1 = heap.room := by
  unfold allocate at h
  split at h
  · rename_i index free hfree
    cases h
    simp only [room, hfree, Array.size_setIfInBounds, List.length_cons]
    omega
  · rename_i hfree
    split at h
    · cases h
      simp only [room, hfree, Array.size_push, List.length_nil]
      omega
    · cases h

theorem room_of_allocate_error (h : allocate object heap = .error fault heap') : heap.room = 0 := by
  unfold allocate at h
  split at h
  · cases h
  · rename_i hfree
    split at h
    · cases h
    · simp only [room, hfree, List.length_nil]
      omega

theorem newString_ok {roots : Roots} {s : String} (tidy : heap.Tidy) (h : roots.newString s heap = .ok value heap') :
    ∃ id object, value = .ref id ∧ object.payload = .text s ∧ heap.Adds object id heap' ∧
      heap'.room + 1 = heap.room := by
  obtain ⟨id, middle, hok, hvalue⟩ := Exec.bind_ok_iff.1 h
  obtain ⟨rfl, rfl⟩ := Exec.pure_ok_iff.1 hvalue
  exact ⟨id, _, rfl, rfl, allocate_adds tidy hok, room_of_allocate hok⟩

theorem newString_error {roots : Roots} {s : String} (h : roots.newString s heap = .error fault heap') :
    heap' = heap ∧ fault = .heapExhausted heap.limit ∧ heap.room = 0 := by
  cases hcopy : cloneWithPayload roots.stringPrototype (.text s) heap with
  | ok id middle =>
    rw [Roots.newString, bind_of_ok hcopy] at h
    cases h
  | error fault' middle =>
    rw [Roots.newString, bind_of_error hcopy] at h
    cases h
    obtain ⟨rfl, rfl⟩ := allocate_error hcopy
    exact ⟨rfl, rfl, room_of_allocate_error hcopy⟩

/-- A call gets its records just if there is room for all of them. -/
theorem newRecords_room (block : ObjectId) (method : Method) (args : List Value) (nil lexical receiver : Value)
    (heap : Heap) :
    Ends (newRecords block method args nil lexical receiver) heap (fun _ _ => method.recordCount ≤ heap.room)
      fun _ _ => heap.room < method.recordCount := by
  unfold newRecords Method.recordCount
  split
  · rw [ends_bind]
    refine ends_iff.2 ⟨fun id middle hok => ?_, fun fault middle herror => ?_⟩
    · have hroom := room_of_allocate hok
      exact Nat.le_of_lt_succ (by omega)
    · have hroom := room_of_allocate_error herror
      omega
  · rw [ends_bind]
    refine ends_iff.2 ⟨fun binding middle hbinding => ?_, fun fault middle herror => ?_⟩
    · have hroom := room_of_allocate hbinding
      rw [ends_bind, ends_releaseOnFault]
      refine ends_iff.2 ⟨fun id last hok => ?_, fun fault last herror => ?_⟩
      · have hroom' := room_of_allocate hok
        exact Nat.le_of_lt_succ (by omega)
      · have hroom' := room_of_allocate_error herror
        omega
    · have hroom := room_of_allocate_error herror
      omega

/-! ## Objects that stay -/

theorem Adds.object_eq (h : heap.Adds object id heap') {other : ObjectId} (hlive : heap.isLive other = true) :
    heap'.object other = heap.object other :=
  object_of_get? (h.get?_of_some (get?_object hlive))

theorem isLive_of_method? {method : Method} (h : (heap.object id).shape.method? = some method) :
    heap.isLive id = true := by
  rw [isLive_iff]
  cases hget : heap.get? id with
  | none => simp [Heap.object, hget, Shape.method?] at h
  | some object => exact ⟨object, rfl⟩

theorem block?_ref (heap : Heap) (id : ObjectId) : heap.block? (.ref id) =
    if (heap.object id).shape.isBlock && !(heap.object id).isActivation then some id else none := rfl

theorem text?_of_payload {s : String} (h : (heap.object id).payload = .text s) : heap.text? (.ref id) = some s := by
  rw [text?, show heap.object? (.ref id) = some (heap.object id) from rfl]
  revert h
  cases heap.object id
  rintro ⟨⟩
  rfl

theorem token?_of_payload {owner : ProcessId} {index : Nat} (h : (heap.object id).payload = .token owner index) :
    heap.token? (.ref id) = some (owner, index) := by
  rw [token?, show heap.object? (.ref id) = some (heap.object id) from rfl]
  revert h
  cases heap.object id
  rintro ⟨⟩
  rfl

theorem Adds.payload_eq (h : heap.Adds object id heap') : (heap'.object id).payload = object.payload := by
  rw [object_of_get? h.get?_self]

theorem Acts.payload_eq {bodies : Body → Prop} {copies : List Object} (h : Acts bodies copies heap heap')
    (tidy : heap.Tidy) (hlive : heap.isLive id = true) : (heap'.object id).payload = (heap.object id).payload := by
  have hissued : heap.Issued id := .of_get? (get?_object hlive)
  have hlive' : heap'.isLive id = true := (h.isLive_eq tidy hissued).trans hlive
  obtain ⟨object, hobject, hkept⟩ := h.deeds.settled tidy hissued (get?_object hlive')
  rw [hkept.payload_eq, object_of_get? hobject]

/-- Where a block was made is still there. -/
theorem Sound.isLive_lexical {policy : Policy} {roots : Roots} {frames : List Frame}
    (hs : heap.Sound policy roots frames) (hlive : heap.isLive id = true) {target : ObjectId}
    (h : (heap.object id).scope.getD (.ref roots.nil) = .ref target) : heap.isLive target = true := by
  cases hscope : (heap.object id).scope with
  | none =>
    rw [hscope, Option.getD_none] at h
    cases h
    exact (hs.anchor_accepts (by simp [Roots.ids])).isLive
  | some scope =>
    rw [hscope, Option.getD_some] at h
    exact ((hs.objects id _ (get?_object hlive)).scope target (hscope.trans (congrArg some h))).1

end Heap

/-- A call of a block fails only for want of frames or of room for its records. -/
theorem Exec.callBlock_of_method {ctx : Context} {m : Machine} (tidy : m.heap.Tidy) {block : ObjectId} {method : Method}
    (hmethod : (m.heap.object block).shape.method? = some method) (selector : String) {args : List Value}
    (hargs : args.length ≤ method.arity) (kind : FrameKind) :
    let lexical := (m.heap.object block).scope.getD (.ref ctx.roots.nil)
    let receiver := m.heap.effective lexical
    Ends (callBlock ctx block selector args kind) m
      (fun _ m' => m.process.depth < ctx.maxFrames ∧ method.recordCount ≤ m.heap.room ∧
        ∃ records,
          Heap.newRecords block method (args.map m.heap.effective) (.ref ctx.roots.nil) lexical receiver m.heap =
            .ok records m'.heap ∧
          m'.process =
            { m.process with
              frames := { body := method.body, activation := .ref records.activation, receiver, kind,
                          records := records.ids } :: m.process.frames })
      fun fault m' => m'.process = m.process ∧
        if ctx.maxFrames ≤ m.process.depth then fault = .stackOverflow ctx.maxFrames
        else m.heap.room < method.recordCount ∧ fault = .heapExhausted m.heap.limit := by
  intro lexical receiver
  unfold callBlock
  simp only [ends_bind, ends_get, hmethod]
  unfold activate
  rw [if_neg (Nat.not_lt.2 hargs)]
  simp only [ends_bind, ends_get]
  split
  · exact ⟨rfl, rfl⟩
  · rename_i hfree
    rw [ends_bind, ends_onHeap]
    have hroom := Heap.newRecords_room block method (args.map m.heap.effective) (.ref ctx.roots.nil) lexical receiver
      m.heap
    refine ends_iff.2 ⟨fun records heap hrecords => ?_, fun fault heap herror => ⟨rfl, ?_⟩⟩
    · simp only [note, ends_bind, ends_modify]
      exact ⟨Nat.lt_of_not_le hfree, hroom.of_ok hrecords, records, hrecords, rfl⟩
    · exact ⟨hroom.of_error herror, (Heap.newRecords_error tidy herror).1⟩

/-- A block that answers an error is called on an empty stack. -/
theorem Exec.raise_of_method {ctx : Context} {m : Machine} {block : ObjectId} {method : Method}
    (hblock : m.process.handler?.bind m.heap.block? = some block)
    (hmethod : (m.heap.object block).shape.method? = some method) (value : Value) (cause : Option Fault) :
    raise ctx value cause m =
      (do let token ← onHeap (Heap.newWithPayload (.token m.process.id m.process.parked.length))
          note (.suspended · m.process.parked.length)
          callBlock ctx block "handler" ([value, .ref token].take (min 2 method.arity)) (.handler value))
        { m with process := m.process.suspend.2 } := by
  have htake (token : ObjectId) :
      [value, .ref token].take (min 2 method.arity) = [value, .ref token].take method.arity := by
    rcases method.arity with _ | _ | n <;> simp
  simp only [htake]
  unfold raise
  rw [get_bind]
  simp only [hblock, hmethod, Option.map_some, Option.getD_some]
  rfl

namespace Machine

/-! ## Ways to end -/

/-- The process has ended because of the fault, with a new string as its result that has the message. -/
def EndsWith (fault : Fault) (k m' : Machine) : Prop :=
  ∃ id display, m'.process = k.process.finish (.error (.ref id) display (some fault)) ∧ ¬k.heap.Issued id ∧
    m'.heap.text? (.ref id) = some fault.message

/-- The process has ended because of the fault, with nil just if there is no room for the message even when its frames
have given back what they had to. -/
def Falls (ctx : Context) (fault : Fault) (k m' : Machine) : Prop :=
  if k.unwind.heap.room = 0 then
    ∃ display, m'.process = k.process.finish (.error (.ref ctx.roots.nil) display (some fault))
  else k.EndsWith fault m'

/-- The block runs as the handler of the fault. It is alone on a new stack and gets as many as it takes of the message
and the token for the stack it interrupts, which is parked. -/
def HandsTo (ctx : Context) (fault : Fault) (block : ObjectId) (method : Method) (k m' : Machine) : Prop :=
  let lexical := (k.heap.object block).scope.getD (.ref ctx.roots.nil)
  let receiver := k.heap.effective lexical
  ∃ message token records heap,
    ¬k.heap.Issued message ∧ m'.heap.text? (.ref message) = some fault.message ∧
    ¬k.heap.Issued token ∧ m'.heap.token? (.ref token) = some (k.process.id, k.process.parked.length) ∧
    Heap.newRecords block method ([.ref message, .ref token].take (min 2 method.arity)) (.ref ctx.roots.nil) lexical
      receiver heap = .ok records m'.heap ∧
    m'.process =
      { k.process with
        frames := [{ body := method.body, activation := .ref records.activation, receiver,
                     kind := .handler (.ref message), records := records.ids }]
        parked := k.process.parked ++ [some k.process.frames] }

variable {policy : Policy} {ctx : Context} {others : List Frame} {k m' : Machine} {fault : Fault}

theorem falls_terminate (ctx : Context) (fault : Fault) (tidy : k.heap.Tidy) :
    k.Falls ctx fault (k.terminate ctx fault) := by
  have hdeeds : Heap.Deeds (fun _ => True) [] k.heap k.unwind.heap := k.heap.deeds_releaseAll _
  have hheap : (k.note (.failed k.process.id fault)).unwind.heap = k.unwind.heap := rfl
  unfold Falls terminate
  simp only [hheap]
  cases hstring : ctx.roots.newString fault.message k.unwind.heap with
  | ok message heap =>
    obtain ⟨id, object, rfl, hpayload, hadds, hroom⟩ := Heap.newString_ok (hdeeds.tidy tidy) hstring
    rw [if_neg (by omega)]
    refine ⟨id, _, rfl, fun hissued => hadds.unissued (hdeeds.issued tidy hissued), ?_⟩
    exact Heap.text?_of_payload (hadds.payload_eq.trans hpayload)
  | error fault' heap =>
    obtain ⟨-, -, hroom⟩ := Heap.newString_error hstring
    rw [if_pos hroom]
    exact ⟨_, rfl⟩

/-! ## Errors -/

theorem Sound.handler_accepts {roots : Roots} (hs : k.Sound policy roots others) {handler : Value}
    (h : k.process.handler? = some handler) : k.Accepts policy others handler := by
  obtain ⟨frame, hframe, hhandler⟩ := Process.mem_handlers.1 (Process.mem_handlers_of_handler? h)
  refine (hs.activations frame (List.mem_append_left _ hframe)).held handler ?_
  simp [Frame.held, hhandler]

/-- The handler is the same block when another object has been made. -/
theorem Sound.block?_eq {roots : Roots} (hs : k.Sound policy roots others) {object : Object} {id : ObjectId}
    {heap : Heap} (hadds : k.heap.Adds object id heap) :
    k.process.handler?.bind heap.block? = k.process.handler?.bind k.heap.block? := by
  cases hhandler : k.process.handler? with
  | none => rfl
  | some handler =>
    have haccepts := hs.handler_accepts hhandler
    cases handler with
    | fixnum n => rfl
    | ref block =>
      rw [Option.bind_some, Option.bind_some, Heap.block?_ref, Heap.block?_ref, hadds.object_eq haccepts.isLive]

/-- No frame gives back an id that was not issued yet. -/
theorem Sound.not_mem_releasable {roots : Roots} (hs : k.Sound policy roots others) {id : ObjectId}
    (hid : ¬k.heap.Issued id) : id ∉ k.process.allFrames.flatMap (·.releasable) := by
  intro hmem
  obtain ⟨frame, hframe, hreleasable⟩ := List.mem_flatMap.1 hmem
  have hown : frame ∈ k.process.ownFrames := k.process.allFrames_perm.mem_iff.1 hframe
  obtain ⟨object, hget, -⟩ := (hs.activations frame (List.mem_append_left _ hown)).records id
    (Frame.mem_records_of_mem_releasable hreleasable)
  exact hid (.of_get? hget)

/-- Without a block to hand it to, a fault that a handler could have answered ends the process all the same. -/
theorem report_of_none (hs : k.Sound policy ctx.roots others) (hnone : k.process.handler?.bind k.heap.block? = none) :
    Ends (report ctx fault) k (fun _ m' => k.heap.room ≠ 0 ∧ k.EndsWith fault m')
      fun fault' stopped => k.heap.room = 0 ∧ fault' = .heapExhausted k.heap.limit ∧ stopped = k := by
  unfold report
  rw [ends_bind, Exec.ends_onHeap]
  refine ends_iff.2 ⟨fun message heap hmessage => ?_, fun fault' heap herror => ?_⟩
  · obtain ⟨id, object, rfl, hpayload, hadds, hroom⟩ := Heap.newString_ok hs.coherent.tidy hmessage
    unfold Exec.raise
    simp only [ends_bind, ends_get, hs.block?_eq hadds, hnone, Exec.note, ends_modify]
    refine ⟨by omega, id, _, rfl, hadds.unissued, ?_⟩
    have hget : (heap.releaseAll (k.process.allFrames.flatMap (·.releasable))).get? id = some object := by
      rw [Heap.get?_releaseAll, if_neg (hs.not_mem_releasable hadds.unissued), hadds.get?_self]
    exact Heap.text?_of_payload ((congrArg Object.payload (Heap.object_of_get? hget)).trans hpayload)
  · obtain ⟨rfl, rfl, hroom⟩ := Heap.newString_error herror
    exact ⟨hroom, rfl, rfl⟩

/-- The heap has a message and a token for the running stack, and all else in it is as it was. -/
structure Readies (fault : Fault) (message token : ObjectId) (k : Machine) (heap : Heap) : Prop where
  tidy : heap.Tidy
  limit_eq : heap.limit = k.heap.limit
  room_eq : heap.room + 2 = k.heap.room
  message_new : ¬k.heap.Issued message
  message_live : heap.isLive message = true
  message_payload : (heap.object message).payload = .text fault.message
  token_new : ¬k.heap.Issued token
  token_live : heap.isLive token = true
  token_payload : (heap.object token).payload = .token k.process.id k.process.parked.length
  object_eq : ∀ id, k.heap.isLive id = true → heap.object id = k.heap.object id

theorem readies_of_adds {object : Object} {message token : ObjectId} {middle heap : Heap}
    (hmessage : k.heap.Adds object message middle) (hroom : middle.room + 1 = k.heap.room)
    (hpayload : object.payload = .text fault.message)
    (htoken : Heap.newWithPayload (.token k.process.id k.process.parked.length) middle = .ok token heap) :
    k.Readies fault message token heap := by
  have hadds := Heap.allocate_adds hmessage.tidy htoken
  have hroom' := Heap.room_of_allocate htoken
  have hlive : middle.isLive message = true := Heap.isLive_iff.2 ⟨object, hmessage.get?_self⟩
  have hkept {id : ObjectId} (hid : k.heap.isLive id = true) : middle.isLive id = true :=
    Heap.isLive_iff.2 ⟨_, hmessage.get?_of_some (Heap.get?_object hid)⟩
  constructor
  case tidy => exact hadds.tidy
  case limit_eq => exact hadds.limit_eq.trans hmessage.limit_eq
  case room_eq => omega
  case message_new => exact hmessage.unissued
  case message_live => exact Heap.isLive_iff.2 ⟨_, hadds.get?_of_some hmessage.get?_self⟩
  case message_payload => rw [hadds.object_eq hlive, hmessage.payload_eq, hpayload]
  case token_new => exact fun hissued => hadds.unissued (hmessage.issued _ hissued)
  case token_live => exact Heap.isLive_iff.2 ⟨_, hadds.get?_self⟩
  case token_payload => exact hadds.payload_eq
  case object_eq => exact fun id hid => (hadds.object_eq (hkept hid)).trans (hmessage.object_eq hid)

/-- Neither the message nor the token stands for anything else. -/
theorem Readies.effective_args {message token : ObjectId} {heap : Heap} (h : k.Readies fault message token heap)
    (n : Nat) :
    ([Value.ref message, .ref token].take n).map heap.effective = [.ref message, .ref token].take n := by
  rw [List.map_take]
  simp [Heap.effective_ref, h.message_payload, h.token_payload, Payload.receiver?]

/-- The records of the handler's call are the last thing that is needed. -/
theorem Readies.callBlock {message token block : ObjectId} {method : Method} {heap : Heap} {journal : List Event}
    (h : k.Readies fault message token heap) (hs : k.Sound policy ctx.roots others)
    (hmethod : (k.heap.object block).shape.method? = some method) :
    Ends (Exec.callBlock ctx block "handler" ([.ref message, .ref token].take (min 2 method.arity))
        (.handler (.ref message))) ⟨heap, k.process.suspend.2, journal⟩
      (fun _ m' => 0 < ctx.maxFrames ∧ 2 + method.recordCount ≤ k.heap.room ∧ k.HandsTo ctx fault block method m')
      fun fault' stopped => stopped.process = k.process.suspend.2 ∧
        if ctx.maxFrames = 0 then fault' = .stackOverflow 0
        else k.heap.room < 2 + method.recordCount ∧ fault' = .heapExhausted k.heap.limit := by
  have hlive := Heap.isLive_of_method? hmethod
  have hobject := h.object_eq block hlive
  have hargs : ([Value.ref message, .ref token].take (min 2 method.arity)).length ≤ method.arity :=
    (List.length_take_le _ _).trans (Nat.min_le_right _ _)
  have hreceiver : heap.effective ((k.heap.object block).scope.getD (.ref ctx.roots.nil)) =
      k.heap.effective ((k.heap.object block).scope.getD (.ref ctx.roots.nil)) := by
    cases hlexical : (k.heap.object block).scope.getD (.ref ctx.roots.nil) with
    | fixnum n => rfl
    | ref target =>
      rw [Heap.effective_ref, Heap.effective_ref, h.object_eq target (hs.isLive_lexical hlive hlexical)]
  have hcall := @Exec.callBlock_of_method ctx ⟨heap, k.process.suspend.2, journal⟩ h.tidy block method
    (hobject ▸ hmethod) "handler" _ hargs (.handler (.ref message))
  simp only [hobject, hreceiver, h.effective_args] at hcall
  refine hcall.mono (fun _ m' hm => ?_) fun fault' stopped hstopped => ⟨hstopped.1, ?_⟩
  · obtain ⟨hframes, hrecords, records, hok, hprocess⟩ := hm
    have hacts : Heap.Acts (fun _ => True) [] heap m'.heap := Heap.acts_newRecords hok
    have hroom := h.room_eq
    refine ⟨Nat.zero_lt_of_lt hframes, by omega, message, token, records, heap, h.message_new, ?_, h.token_new, ?_, hok,
      hprocess⟩
    · exact Heap.text?_of_payload ((hacts.payload_eq h.tidy h.message_live).trans h.message_payload)
    · exact Heap.token?_of_payload ((hacts.payload_eq h.tidy h.token_live).trans h.token_payload)
  · have hdepth : (ctx.maxFrames ≤ k.process.suspend.2.depth) = (ctx.maxFrames = 0) := propext Nat.le_zero
    have hfault := hstopped.2
    have hroom := h.room_eq
    simp only [hdepth] at hfault
    split at hfault
    · rename_i hzero
      rw [if_pos hzero, hfault, hzero]
    · rename_i hzero
      rw [if_neg hzero, hfault.2, h.limit_eq]
      exact ⟨by omega, rfl⟩

/-- The handler runs just if there is room for the message, the token and the records of its call. -/
theorem report_of_some (hs : k.Sound policy ctx.roots others) {block : ObjectId} {method : Method}
    (hblock : k.process.handler?.bind k.heap.block? = some block)
    (hmethod : (k.heap.object block).shape.method? = some method) :
    Ends (report ctx fault) k
      (fun _ m' => 0 < ctx.maxFrames ∧ 2 + method.recordCount ≤ k.heap.room ∧ k.HandsTo ctx fault block method m')
      fun fault' stopped => ¬(0 < ctx.maxFrames ∧ 2 + method.recordCount ≤ k.heap.room) ∧
        fault' = (if 2 ≤ k.heap.room ∧ ctx.maxFrames = 0 then .stackOverflow 0 else .heapExhausted k.heap.limit) ∧
        stopped.process.id = k.process.id ∧ stopped.process.ownFrames.Perm k.process.ownFrames := by
  have hsuspended : k.process.suspend.2.ownFrames.Perm k.process.ownFrames := by
    simpa [Process.ownFrames, Process.suspend] using List.perm_append_comm
  unfold report
  rw [ends_bind, Exec.ends_onHeap]
  refine ends_iff.2 ⟨fun message middle hmessage => ?_, fun fault' middle herror => ?_⟩
  · obtain ⟨message, object, rfl, hpayload, hadds, hroom⟩ := Heap.newString_ok hs.coherent.tidy hmessage
    have hobject : middle.object block = k.heap.object block := hadds.object_eq (Heap.isLive_of_method? hmethod)
    unfold Ends
    rw [Exec.raise_of_method ((hs.block?_eq hadds).trans hblock) (hobject ▸ hmethod)]
    show Ends _ _ _ _
    rw [ends_bind, Exec.ends_onHeap]
    refine ends_iff.2 ⟨fun token heap htoken => ?_, fun fault' heap herror => ?_⟩
    · have hreadies : k.Readies fault message token heap := readies_of_adds hadds hroom hpayload htoken
      rw [ends_bind]
      refine (hreadies.callBlock hs hmethod).mono (fun _ _ h => h) fun fault' stopped hstopped => ?_
      obtain ⟨hprocess, hfault⟩ := hstopped
      have hroom' := hreadies.room_eq
      rw [hprocess]
      refine ⟨by split at hfault <;> omega, ?_, rfl, hsuspended⟩
      split at hfault
      · rename_i hzero
        rw [if_pos ⟨by omega, hzero⟩, hfault]
      · rename_i hzero
        rw [if_neg fun h => hzero h.2, hfault.2]
    · have hroom' : middle.room = 0 := Heap.room_of_allocate_error herror
      obtain ⟨-, rfl⟩ := Heap.allocate_error herror
      refine ⟨by omega, ?_, rfl, hsuspended⟩
      rw [if_neg (by omega), hadds.limit_eq]
  · obtain ⟨rfl, rfl, hroom⟩ := Heap.newString_error herror
    refine ⟨by omega, ?_, rfl, .refl _⟩
    rw [if_neg (by omega)]

theorem fail_of_none (hs : k.Sound policy ctx.roots others) (hfault : fault.isRecoverable = true)
    (hnone : k.process.handler?.bind k.heap.block? = none) :
    if k.heap.room = 0 then k.Falls ctx (.heapExhausted k.heap.limit) (k.fail ctx fault)
    else k.EndsWith fault (k.fail ctx fault) := by
  have hreport : Ends (report ctx fault) k _ _ := report_of_none hs hnone
  rw [fail_eq, if_pos hfault]
  cases hresult : report ctx fault k with
  | ok a m' =>
    obtain ⟨hroom, hends⟩ := hreport.of_ok hresult
    rw [if_neg hroom]
    exact hends
  | error fault' stopped =>
    obtain ⟨hroom, rfl, rfl⟩ := hreport.of_error hresult
    rw [if_pos hroom]
    exact falls_terminate ctx _ hs.coherent.tidy

theorem fail_of_some (hs : k.Sound policy ctx.roots others) (hfault : fault.isRecoverable = true) {block : ObjectId}
    {method : Method} (hblock : k.process.handler?.bind k.heap.block? = some block)
    (hmethod : (k.heap.object block).shape.method? = some method) :
    if 0 < ctx.maxFrames ∧ 2 + method.recordCount ≤ k.heap.room then k.HandsTo ctx fault block method (k.fail ctx fault)
    else ∃ fault' stopped, report ctx fault k = .error fault' stopped ∧
      fault' = (if 2 ≤ k.heap.room ∧ ctx.maxFrames = 0 then .stackOverflow 0 else .heapExhausted k.heap.limit) ∧
      stopped.process.id = k.process.id ∧ stopped.process.ownFrames.Perm k.process.ownFrames ∧
      stopped.Falls ctx fault' (k.fail ctx fault) := by
  have hreport : Ends (report ctx fault) k _ _ := report_of_some hs hblock hmethod
  rw [fail_eq, if_pos hfault]
  cases hresult : report ctx fault k with
  | ok a m' =>
    obtain ⟨hframes, hroom, hhands⟩ := hreport.of_ok hresult
    rw [if_pos ⟨hframes, hroom⟩]
    exact hhands
  | error fault' stopped =>
    obtain ⟨hlacks, hfault', hid, hown⟩ := hreport.of_error hresult
    have htouches : Heap.Touches ⟨[], fun _ => False, fun _ => False⟩ k.heap stopped.heap :=
      ((Heap.RunRule.governs_report ctx fault k : (Heap.RunRule.touches _).machine.Governs _ k).of_error hresult).2
    rw [if_neg hlacks]
    exact ⟨fault', stopped, rfl, hfault', hid, hown, falls_terminate ctx fault' (htouches.tidy hs.coherent.tidy)⟩

/-- The fault with which the next instruction fails, and the machine at that moment. -/
def fault? (ctx : Context) (m : Machine) : Option (Fault × Machine) :=
  match Exec.step ctx m with
  | .ok _ _ => none
  | .error fault k => some (fault, k)

theorem step_of_fault? {m : Machine} (h : m.fault? ctx = some (fault, k)) : Exec.step ctx m = .error fault k := by
  unfold fault? at h
  split at h
  · cases h
  · rename_i hstep
    cases h
    exact hstep

end Machine

/-- One instruction changes nothing but the process that it belongs to, and the heap. -/
theorem Scheduler.tick_of_going {s : Scheduler} {index : Nat} {process : Process}
    (hprocess : s.pool[index]? = some process) (hgoing : process.isFinished = false) :
    let m' := (s.machine process).advance s.context
    s.tick index =
      { s with
        heap := m'.heap
        pool := s.pool.set index m'.process
        outcomes := s.outcomes.setIfInBounds m'.process.id m'.process.outcome
        journal := m'.journal } := by
  intro m'
  unfold tick
  rw [hprocess]
  simp only [hgoing, Bool.false_eq_true, if_false]
  rfl

/-! ## Sessions -/

namespace Session

variable {plain : Prop} {w : Session} {process : Process} {handler : Value} {fault : Fault} {k : Machine}

/-- An installed handler is an object with the code of a block. -/
theorem Reachable.handler_method (hw : w.Reachable plain) (hprocess : process ∈ w.scheduler.pool)
    (h : process.handler? = some handler) :
    ∃ block method, handler = .ref block ∧ (w.heap.object block).shape.method? = some method ∧
      method.isBlock = true := by
  obtain ⟨others, hs⟩ := hw.machine_sound hprocess
  have haccepts := Machine.Sound.handler_accepts (k := w.scheduler.machine process) hs h
  obtain ⟨block, rfl, -, hblock⟩ :=
    hw.isBlock_of_mem_handlers hprocess (Process.mem_handlers_of_handler? h)
  have hshape := hblock _ (Heap.get?_object haccepts.isLive)
  obtain ⟨method, hmethod, hisBlock⟩ := (Option.any_eq_true _ _).1 hshape
  exact ⟨block, method, rfl, hmethod, hisBlock⟩

/-- The machine is sound where an instruction fails, and nothing was given back until then. -/
theorem Reachable.sound_of_error (hw : w.Reachable plain) (hprocess : process ∈ w.scheduler.pool)
    (hgoing : process.isFinished = false)
    (hstep : Exec.step w.scheduler.context (w.scheduler.machine process) = .error fault k) :
    (∃ others, k.Sound (w.policy plain) w.scheduler.context.roots others) ∧
      ∃ bodies, Heap.Acts bodies [] w.heap k.heap := by
  obtain ⟨others, hs⟩ := hw.machine_sound hprocess
  have hkeeps := @Exec.keeps_step _ w.scheduler.context _ _ hs
  have hstalls := (Exec.step_passes w.scheduler.context (hw.lacks hprocess hgoing).stacked).of_error hstep
  exact ⟨⟨others, (Ends.of_error hkeeps hstep).sound⟩, _, hstalls.acts⟩

/-- Up to a fault that a handler can answer the handler has not changed. -/
theorem Reachable.handler_of_error (hw : w.Reachable plain) (hprocess : process ∈ w.scheduler.pool)
    (hgoing : process.isFinished = false)
    (hstep : Exec.step w.scheduler.context (w.scheduler.machine process) = .error fault k)
    (hfault : fault.isRecoverable = true) :
    k.process.handler?.bind k.heap.block? = process.handler?.bind w.heap.block? ∧
      ∀ block, process.handler? = some (.ref block) →
        (k.heap.object block).shape.method? = (w.heap.object block).shape.method? := by
  obtain ⟨⟨others, hs⟩, bodies, hacts⟩ := hw.sound_of_error hprocess hgoing hstep
  have hsame : k.process.handler? = process.handler? :=
    ((Exec.installs_step w.scheduler.context _).of_error hstep hfault).handler?_eq
  have hkept {block : ObjectId} (h : process.handler? = some (.ref block)) :
      (k.heap.object block).shape.method? = (w.heap.object block).shape.method? ∧
        (k.heap.object block).isActivation = (w.heap.object block).isActivation := by
    obtain ⟨found, method, heq, hmethod, -⟩ := hw.handler_method hprocess h
    cases heq
    have hlive := Heap.isLive_of_method? hmethod
    have hissued : w.heap.Issued block := .of_get? (Heap.get?_object hlive)
    have htidy := hw.sound.heap.coherent.tidy
    have hlive' : k.heap.isLive block = true := (hacts.isLive_eq htidy hissued).trans hlive
    obtain ⟨object, hobject, hsettled⟩ := hacts.deeds.settled htidy hissued (Heap.get?_object hlive')
    rw [Heap.object_of_get? hobject, Shape.method?, hsettled.behavior_eq, Object.isActivation, hsettled.payload_eq]
    exact ⟨rfl, rfl⟩
  refine ⟨?_, fun block h => (hkept h).1⟩
  rw [hsame]
  cases hhandler : process.handler? with
  | none => rfl
  | some handler =>
    obtain ⟨block, -, rfl, -⟩ := hw.handler_method hprocess hhandler
    obtain ⟨hmethod, hactivation⟩ := hkept hhandler
    rw [Option.bind_some, Option.bind_some, Heap.block?_ref, Heap.block?_ref, Shape.isBlock, hmethod, hactivation]
    rfl

/-- What follows from the fault with which an instruction of the process at `index` fails; `k` is the machine at that
moment. -/
structure Failure (plain : Prop) (w : Session) (index : Nat) (process : Process) (fault : Fault) (k m' : Machine) :
    Prop where
  /-- A fault that no handler can answer ends the process. -/
  fatal : fault.isRecoverable = false → k.Falls w.scheduler.context fault m'
  /-- So does any other fault without a handler. The record of a call is none. -/
  unhandled : fault.isRecoverable = true →
    (∀ handler, process.handler? = some handler → w.heap.isActivation handler = true) →
    if k.heap.room = 0 then k.Falls w.scheduler.context (.heapExhausted k.heap.limit) m' else k.EndsWith fault m'
  /-- The innermost handler runs, unless there is no room for what it needs. -/
  handled : fault.isRecoverable = true → ∀ handler, process.handler? = some handler →
    w.heap.isActivation handler = false → ∃ block method, handler = .ref block ∧
      (w.heap.object block).shape.method? = some method ∧ method.isBlock = true ∧
      if 0 < w.scheduler.config.maxFrames ∧ 2 + method.recordCount ≤ k.heap.room then
        k.HandsTo w.scheduler.context fault block method m'
      else ∃ fault' stopped, Machine.report w.scheduler.context fault k = .error fault' stopped ∧
        fault' = (if 2 ≤ k.heap.room ∧ w.scheduler.config.maxFrames = 0 then .stackOverflow 0
          else .heapExhausted k.heap.limit) ∧
        stopped.process.id = k.process.id ∧ stopped.process.ownFrames.Perm k.process.ownFrames ∧
        stopped.Falls w.scheduler.context fault' m'
  /-- If the user stores no activation then no handler is one. -/
  proper : plain → ∀ handler, process.handler? = some handler → w.heap.isActivation handler = false
  own : (w.scheduler.tick index).heap = m'.heap ∧ (w.scheduler.tick index).pool[index]? = some m'.process ∧
    (w.scheduler.tick index).status? process.id = some (.ofOutcome m'.process.outcome)
  /-- The other processes stay as they are. -/
  others : (∀ other, other ≠ index → (w.scheduler.tick index).pool[other]? = w.scheduler.pool[other]?) ∧
    ∀ id, id ≠ process.id → (w.scheduler.tick index).status? id = w.scheduler.status? id

/-- A failed instruction ends its process or calls the handler, in every state that can come about. -/
theorem failure_of_step (hw : w.Reachable plain) {index : Nat} (hprocess : w.scheduler.pool[index]? = some process)
    (hgoing : process.isFinished = false)
    (hstep : Exec.step w.scheduler.context (w.scheduler.machine process) = .error fault k) :
    w.Failure plain index process fault k ((w.scheduler.machine process).advance w.scheduler.context) := by
  have hmem : process ∈ w.scheduler.pool := List.mem_of_getElem? hprocess
  obtain ⟨⟨others, hs⟩, -⟩ := hw.sound_of_error hmem hgoing hstep
  have hadvance : (w.scheduler.machine process).advance w.scheduler.context = k.fail w.scheduler.context fault := by
    rw [Machine.advance, hstep]
  have htick := Scheduler.tick_of_going hprocess hgoing
  have hid : ((w.scheduler.machine process).advance w.scheduler.context).process.id = process.id := by
    obtain ⟨others, hs⟩ := hw.machine_sound hmem
    exact (Machine.follows_advance hs).id_eq
  constructor
  case fatal =>
    intro hfault
    rw [hadvance, Machine.fail_eq, if_neg (by simp [hfault])]
    exact Machine.falls_terminate _ fault hs.coherent.tidy
  case unhandled =>
    intro hfault hnone
    have hbind : process.handler?.bind w.heap.block? = none := by
      cases hhandler : process.handler? with
      | none => rfl
      | some handler =>
        obtain ⟨block, -, rfl, -⟩ := hw.handler_method hmem hhandler
        have hactivation : (w.heap.object block).isActivation = true := hnone _ hhandler
        rw [Option.bind_some, Heap.block?_ref, hactivation, Bool.not_true, Bool.and_false]
        rfl
    rw [hadvance]
    exact Machine.fail_of_none hs hfault ((hw.handler_of_error hmem hgoing hstep hfault).1.trans hbind)
  case handled =>
    intro hfault handler hhandler hproper
    obtain ⟨block, method, rfl, hmethod, hblock⟩ := hw.handler_method hmem hhandler
    have hactivation : (w.heap.object block).isActivation = false := hproper
    have hbind : process.handler?.bind w.heap.block? = some block := by
      rw [hhandler, Option.bind_some, Heap.block?_ref, hactivation, Shape.isBlock, hmethod, Option.any_some, hblock]
      rfl
    obtain ⟨hsame, hmethods⟩ := hw.handler_of_error hmem hgoing hstep hfault
    refine ⟨block, method, rfl, hmethod, hblock, ?_⟩
    rw [hadvance]
    exact Machine.fail_of_some hs hfault (hsame.trans hbind) ((hmethods block hhandler).trans hmethod)
  case proper =>
    intro hplain handler hhandler
    obtain ⟨others, hs⟩ := hw.machine_sound hmem
    exact (Machine.Sound.handler_accepts (k := w.scheduler.machine process) hs hhandler).isActivation_eq_false hplain
  case own =>
    rw [htick]
    have hlt : index < w.scheduler.pool.length := (List.getElem?_eq_some_iff.1 hprocess).1
    have hbound := (Array.getElem?_eq_some_iff.1 (hw.registered.outcome_eq process hmem)).1
    refine ⟨rfl, List.getElem?_set_self hlt, ?_⟩
    simp [Scheduler.status?, hid, hbound]
  case others =>
    rw [htick]
    refine ⟨fun other hother => List.getElem?_set_ne (Ne.symm hother), fun id hne => ?_⟩
    simp only [Scheduler.status?, hid]
    rw [Array.getElem?_setIfInBounds_ne (Ne.symm hne)]

/-- Installs the block that the lines push as a handler. -/
def installing (block : List Line) : List Line :=
  Demo.interpreter ++ block ++ Demo.send "setErrorHandler:" .keyword 1 ++ [.pop]

/-- Sends a message that nothing answers. -/
def failing : List Line := [.pushSelf] ++ Demo.send "gone" .unary 0

/-- Of two processes with the same program the first fails, and its handler runs. -/
theorem failure_of_step_enacted :
    ∃ (w : Session) (process other : Process) (fault : Fault) (k : Machine) (block : ObjectId) (method : Method),
      let m' := (w.scheduler.machine process).advance w.scheduler.context
      w.Reachable True ∧ w.scheduler.pool[0]? = some process ∧ w.scheduler.pool[1]? = some other ∧
      fault.isRecoverable = true ∧ Exec.step w.scheduler.context (w.scheduler.machine process) = .error fault k ∧
      process.handler? = some (.ref block) ∧ k.HandsTo w.scheduler.context fault block method m' ∧
      (w.scheduler.tick 0).pool[0]? = some m'.process ∧ (w.scheduler.tick 0).pool[1]? = some other := by
  let handler : List Line := [.push (.object .block ["msg", "err"] (some [.push (.int 7)]))]
  have henacted : ((Code.compile (installing handler ++ failing)).toOption.any fun code =>
      (enact {} ([.load code, .add 0, .add 0] ++ List.replicate 11 (.tick 0))).any fun w =>
        w.scheduler.pool[0]?.any fun process =>
          w.scheduler.pool[1]?.isSome && !process.isFinished && process.handler?.isSome &&
            0 < w.scheduler.config.maxFrames &&
            ((w.scheduler.machine process).fault? w.scheduler.context).any fun failed =>
              failed.1.isRecoverable && 4 ≤ failed.2.heap.room) = true := by
    decide +kernel
  simp only [Option.any_eq_true, Bool.and_eq_true, Bool.not_eq_true', decide_eq_true_eq,
    Option.isSome_iff_exists] at henacted
  obtain ⟨code, -, w, hw, process, hprocess, ⟨⟨⟨⟨other, hother⟩, hgoing⟩, value, hhandler⟩, hframes⟩, ⟨fault, k⟩,
    hfailed, hfault, hroom⟩ := henacted
  have hreachable : w.Reachable True := reachable_of_enact hw
  have hstep := Machine.step_of_fault? hfailed
  have hfailure := failure_of_step hreachable hprocess hgoing hstep
  obtain ⟨block, method, rfl, -, -, hcall⟩ :=
    hfailure.handled hfault value hhandler (hfailure.proper trivial value hhandler)
  have hneeded : 2 + method.recordCount ≤ 4 := by
    unfold Method.recordCount
    split <;> decide
  rw [if_pos ⟨hframes, hneeded.trans hroom⟩] at hcall
  exact ⟨w, process, other, fault, k, block, method, hreachable, hprocess, hother, hfault, hstep, hhandler, hcall,
    hfailure.own.2.1, (hfailure.others.1 1 (by decide)).trans hother⟩

/-- The user makes three activations of a block, one inside the other, and gives the block and the outermost activation
names. A program installs the block and, in a call, the activation, and then fails in that call. -/
def nestedHandlers : Option Session :=
  let named (name : String) : List Line := installing ([Line.pushSelf] ++ Demo.send name .unary 0)
  let maker : List Line := [.push (.object .block [] (some [.push (.int 7)]))]
  let caller : List Line := named "outer" ++
    [.push (.object .plain [] none), .push (.text "call"), .push (.object .method [] (some (named "inner" ++ failing))),
      .addSlot .normal] ++ Demo.send "call" .unary 0
  match Scheduler.create {} 100, Code.compile maker, Code.compile caller with
  | .ok s, .ok maker, .ok caller =>
    let activation (receiver : ObjectId) : Action := .request (.cloneWithPayload ⟨49, 0⟩ (.activation (.ref receiver)))
    let actions : List Action :=
      [.load maker, .add 0, .run 10, .learn (.ref ⟨49, 0⟩), .remove 0, .learn (.ref s.roots.nil),
        activation s.roots.nil, activation ⟨50, 0⟩, activation ⟨51, 0⟩,
        .request (.addSlot s.roots.lobby "outer" (.ref ⟨49, 0⟩)),
        .request (.addSlot s.roots.lobby "inner" (.ref ⟨52, 0⟩)), .load caller, .add 0] ++ List.replicate 30 (.tick 0)
    some (actions.foldl attempt { scheduler := s })
  | _, _, _ => none

theorem reachable_of_nestedHandlers (h : nestedHandlers = some w) : w.Reachable False := by
  unfold nestedHandlers at h
  simp only at h
  split at h
  · rename_i s maker caller hs hmaker hcaller
    rw [← Option.some.inj h]
    exact (Reachable.start hs).attempts _
  · cases h

/-- An activation of a block is no handler, and it hides the block installed further out. -/
theorem finished_of_nestedHandlers :
    ∃ (w : Session) (process : Process) (fault : Fault) (k : Machine) (inner outer : ObjectId),
      let m' := (w.scheduler.machine process).advance w.scheduler.context
      w.Reachable False ∧ w.scheduler.pool[0]? = some process ∧ process.isFinished = false ∧
      Exec.step w.scheduler.context (w.scheduler.machine process) = .error fault k ∧ fault.isRecoverable = true ∧
      process.frames.map (·.handler) = [some (.ref inner), some (.ref outer)] ∧
      (w.heap.object inner).shape.isBlock = true ∧ w.heap.block? (.ref outer) = some outer ∧
      0 < w.scheduler.config.maxFrames ∧ 4 ≤ k.heap.room ∧
      m'.process.frames = [] ∧ m'.process.outcome.bind (·.cause?) = some fault := by
  have hnested : (nestedHandlers.any fun w => w.scheduler.pool[0]?.any fun process =>
      ((w.scheduler.machine process).fault? w.scheduler.context).any fun failed =>
        let m' := (w.scheduler.machine process).advance w.scheduler.context
        decide (process.isFinished = false ∧ failed.1.isRecoverable = true ∧
          process.frames.map (·.handler) = [some (.ref ⟨50, 0⟩), some (.ref ⟨49, 0⟩)] ∧
          (w.heap.object ⟨50, 0⟩).shape.isBlock = true ∧ w.heap.block? (.ref ⟨49, 0⟩) = some ⟨49, 0⟩ ∧
          0 < w.scheduler.config.maxFrames ∧ 4 ≤ failed.2.heap.room ∧
          m'.process.frames.isEmpty = true ∧ m'.process.outcome.bind (·.cause?) = some failed.1)) = true := by
    decide +kernel
  simp only [Option.any_eq_true, decide_eq_true_eq, List.isEmpty_iff] at hnested
  obtain ⟨w, hw, process, hprocess, ⟨fault, k⟩, hfailed, hgoing, hfault, hhandlers, hends⟩ := hnested
  exact ⟨w, process, fault, k, ⟨50, 0⟩, ⟨49, 0⟩, reachable_of_nestedHandlers hw, hprocess, hgoing,
    Machine.step_of_fault? hfailed, hfault, hhandlers, hends⟩

end Session

end ProtoVm
