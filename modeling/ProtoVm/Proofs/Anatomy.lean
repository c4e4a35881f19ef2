import ProtoVm.Proofs.MachineRules

/-!
# The anatomy of an instruction

Exactly what an instruction does to the frames of its process. It goes past itself in the code and marks its
frame if it copies an object literal. Then the frames are as they were, a new one has begun, or some of them
have gone and given back what they had to.
-/

namespace ProtoVm

/-- The frame without its operands and its handler. -/
def Frame.bare (frame : Frame) : Frame := { frame with stack := [], handler := none }

/-- Frames that are the same but for operands and handler run the same call at the same place. -/
theorem Frame.eq_of_bare {frame frame' : Frame} (h : frame'.bare = frame.bare) :
    frame'.body = frame.body ∧ frame'.ip = frame.ip ∧ frame'.activation = frame.activation ∧
      frame'.receiver = frame.receiver ∧ frame'.kind = frame.kind ∧ frame'.records = frame.records ∧
      frame'.captured = frame.captured := by
  cases frame
  cases frame'
  simp only [Frame.bare, Frame.mk.injEq] at h
  exact ⟨h.1, h.2.1, h.2.2.2.1, h.2.2.2.2.1, h.2.2.2.2.2.2.1, h.2.2.2.2.2.2.2⟩

namespace Process

/-- The process without the operands and the handler of its innermost frame. -/
def bare (process : Process) : Process := { process with frames := process.frames.modifyHead Frame.bare }

/-- No parked stack is empty. -/
def Stacked (process : Process) : Prop := ∀ stack, some stack ∈ process.parked → stack ≠ []

variable {process process' : Process}

theorem frames_of_bare (h : process'.bare = process.bare) {top : Frame} {callers : List Frame}
    (hframes : process.frames = top :: callers) :
    ∃ top', process'.frames = top' :: callers ∧ top'.bare = top.bare := by
  have h := congrArg Process.frames h
  simp only [bare, hframes, List.modifyHead_cons] at h
  cases hframes' : process'.frames with
  | nil => simp [hframes'] at h
  | cons top' callers' =>
    rw [hframes', List.modifyHead_cons, List.cons.injEq] at h
    exact ⟨top', by rw [h.2], h.1⟩

theorem parked_of_bare (h : process'.bare = process.bare) : process'.parked = process.parked := by
  have h := congrArg Process.parked h
  exact h

theorem id_of_bare (h : process'.bare = process.bare) : process'.id = process.id := by
  have h := congrArg Process.id h
  exact h

theorem outcome_of_bare (h : process'.bare = process.bare) : process'.outcome = process.outcome := by
  have h := congrArg Process.outcome h
  exact h

theorem map_bare_of_bare (h : process'.bare = process.bare) :
    process'.ownFrames.map Frame.bare = process.ownFrames.map Frame.bare := by
  have hframes : process'.frames.map Frame.bare = process.frames.map Frame.bare := by
    have hmap (frames : List Frame) : (frames.modifyHead Frame.bare).map Frame.bare = frames.map Frame.bare := by
      cases frames <;> rfl
    rw [← hmap, ← hmap process.frames]
    exact congrArg (List.map Frame.bare) (congrArg Process.frames h)
  simp only [ownFrames, List.map_append, hframes, parked_of_bare h]

theorem Stacked.of_bare (hs : process.Stacked) (h : process'.bare = process.bare) : process'.Stacked := by
  unfold Stacked
  rw [parked_of_bare h]
  exact hs

theorem finish_of_id (h : process'.id = process.id) (outcome : Outcome) :
    process'.finish outcome = process.finish outcome := by
  simp [finish, h]

end Process

theorem releasable_of_map_bare {frames frames' : List Frame}
    (h : (frames'.map Frame.bare).Perm (frames.map Frame.bare)) :
    (frames'.flatMap (·.releasable)).Perm (frames.flatMap (·.releasable)) := by
  have hbare (frames : List Frame) : (frames.map Frame.bare).flatMap (·.releasable) = frames.flatMap (·.releasable) := by
    rw [List.flatMap_map]
    rfl
  rw [← hbare, ← hbare frames]
  exact h.flatMap_right _

theorem Heap.releaseAll_append (heap : Heap) (ids ids' : List ObjectId) :
    heap.releaseAll (ids ++ ids') = (heap.releaseAll ids).releaseAll ids' := List.foldl_append

/-- A frame for a call of a method in the heap begins with records made for it. -/
inductive Frame.Begins (kind : FrameKind) (heap : Heap) (frame : Frame) (heap' : Heap) : Prop
  | call {object : ObjectId} {method : Method} {args : List Value} {nil lexical receiver : Value} {records : Records}
      (hmethod : (heap.object object).shape.method? = some method)
      (hrecords : Heap.newRecords object method args nil lexical receiver heap = .ok records heap')
      (hframe : frame =
        { body := method.body, activation := .ref records.activation, receiver, kind, records := records.ids })

namespace Machine

variable {bodies : Body → Prop} {m k m' : Machine} {fault : Fault}

/-- The heap has seen acts, and the frames are the same but for operands and handler of the innermost one. -/
structure Abides (bodies : Body → Prop) (m m' : Machine) : Prop where
  acts : Heap.Acts bodies [] m.heap m'.heap
  process_eq : m'.process.bare = m.process.bare

/-- The process has ended, and all its frames have given their records back. -/
def Closes (bodies : Body → Prop) (m m' : Machine) : Prop :=
  ∃ heap ids outcome, Heap.Acts bodies [] m.heap heap ∧ ids.Perm (m.process.ownFrames.flatMap (·.releasable)) ∧
    Heap.Acts bodies [] (heap.releaseAll ids) m'.heap ∧ m'.process = m.process.finish outcome

/-- How a machine goes on; `k` is the machine right before its frames change. -/
inductive Goes (bodies : Body → Prop) (m : Machine) : Machine → Prop
  | stay {m' : Machine} (h : m.Abides bodies m') : Goes bodies m m'
  | call {k m' : Machine} {frame : Frame} (h : m.Abides bodies k) (hframe : frame.Begins .call k.heap m'.heap)
      (hprocess : m'.process = { k.process with frames := frame :: k.process.frames }) : Goes bodies m m'
  | park {k m' : Machine} {frame : Frame} {heap : Heap} {error : Value} (h : m.Abides bodies k)
      (hheap : Heap.Acts bodies [] k.heap heap) (hframe : frame.Begins (.handler error) heap m'.heap)
      (hprocess : m'.process =
        { k.process with frames := [frame], parked := k.process.parked ++ [some k.process.frames] }) : Goes bodies m m'
  | resume {k m' : Machine} {index : Nat} {top : Frame} {callers : List Frame} {value : Value} (h : m.Abides bodies k)
      (hparked : k.process.parked[index]? = some (some (top :: callers)))
      (hheap : m'.heap = k.heap.releaseAll (k.process.frames.reverse.flatMap (·.releasable)))
      (hprocess : m'.process =
        { k.process with frames := top.push value :: callers, parked := k.process.parked.set index none }) :
      Goes bodies m m'
  | close {m' : Machine} (h : m.Closes bodies m') : Goes bodies m m'

/-- After a fault all frames are still there, and where a handler may answer they are as they were. -/
structure Fails (bodies : Body → Prop) (m : Machine) (fault : Fault) (m' : Machine) : Prop where
  acts : Heap.Acts bodies [] m.heap m'.heap
  id_eq : m'.process.id = m.process.id
  frames : (m'.process.ownFrames.map Frame.bare).Perm (m.process.ownFrames.map Frame.bare)
  stays : fault.isRecoverable = true → m'.process.bare = m.process.bare

theorem Abides.refl (m : Machine) : m.Abides bodies m := ⟨.refl, rfl⟩

theorem Abides.trans (h : m.Abides bodies k) (h' : k.Abides bodies m') : m.Abides bodies m' :=
  ⟨h.acts.trans h'.acts, h'.process_eq.trans h.process_eq⟩

theorem Abides.fails (h : m.Abides bodies m') : m.Fails bodies fault m' :=
  ⟨h.acts, Process.id_of_bare h.process_eq, .of_eq (Process.map_bare_of_bare h.process_eq), fun _ => h.process_eq⟩

theorem Abides.then_fails (h : m.Abides bodies k) (h' : k.Fails bodies fault m') : m.Fails bodies fault m' :=
  ⟨h.acts.trans h'.acts, h'.id_eq.trans (Process.id_of_bare h.process_eq),
    h'.frames.trans (.of_eq (Process.map_bare_of_bare h.process_eq)),
    fun hfault => (h'.stays hfault).trans h.process_eq⟩

theorem Fails.closes (h : m.Fails bodies fault k) (h' : k.Closes bodies m') : m.Closes bodies m' := by
  obtain ⟨heap, ids, outcome, hbefore, hids, hafter, hprocess⟩ := h'
  exact ⟨heap, ids, outcome, h.acts.trans hbefore, hids.trans (releasable_of_map_bare h.frames), hafter,
    hprocess.trans (Process.finish_of_id h.id_eq outcome)⟩

theorem Abides.goes (h : m.Abides bodies k) (h' : k.Goes bodies m') : m.Goes bodies m' := by
  cases h' with
  | stay h' => exact .stay (h.trans h')
  | call h' hframe hprocess => exact .call (h.trans h') hframe hprocess
  | park h' hheap hframe hprocess => exact .park (h.trans h') hheap hframe hprocess
  | resume h' hparked hheap hprocess => exact .resume (h.trans h') hparked hheap hprocess
  | close h' =>
    have hfails : m.Fails bodies .stackUnderflow k := h.fails
    exact .close (hfails.closes h')

theorem Fails.mono {bodies' : Body → Prop} (h : m.Fails bodies fault m') (hbodies : ∀ body, bodies body → bodies' body) :
    m.Fails bodies' fault m' :=
  ⟨Heap.Acts.mono h.acts hbodies, h.id_eq, h.frames, h.stays⟩

theorem closes_conclude (ctx : Context) (value : Value) (outcome : String → Outcome) (m : Machine) :
    m.Closes bodies (m.conclude ctx value outcome) :=
  ⟨m.heap, m.process.allFrames.flatMap (·.releasable), _, .refl, m.process.allFrames_perm.flatMap_right _, .refl, rfl⟩

/-- The innermost frame is left first, and then the rest is unwound. -/
theorem closes_leave {left : Machine} {top : Frame} {callers : List Frame} (hframes : m.process.frames = top :: callers)
    (hheap : left.heap = m.heap.releaseAll top.releasable) (hprocess : left.process = { m.process with frames := callers })
    (ctx : Context) (value : Value) (outcome : String → Outcome) :
    m.Closes bodies (left.conclude ctx value outcome) := by
  have hown : m.process.ownFrames = top :: left.process.ownFrames := by
    simp [hprocess, Process.ownFrames, hframes]
  refine ⟨m.heap, top.releasable ++ left.process.allFrames.flatMap (·.releasable),
    outcome (left.unwind.heap.display ctx.roots value), .refl, ?_, ?_, ?_⟩
  · rw [hown, List.flatMap_cons]
    exact (left.process.allFrames_perm.flatMap_right _).append_left _
  · rw [Heap.releaseAll_append, ← hheap]
    exact .refl
  · have hid : left.process.id = m.process.id := by rw [hprocess]
    exact Process.finish_of_id hid _

theorem closes_terminate (ctx : Context) (fault : Fault) (m : Machine) :
    m.Closes bodies (m.terminate ctx fault) := by
  have hends {heap : Heap} (value : Value)
      (hacts : Heap.Acts bodies [] (m.heap.releaseAll (m.process.allFrames.flatMap (·.releasable))) heap) :
      m.Closes bodies
        ({ (m.note (.failed m.process.id fault)).unwind with heap }.finishWithError ctx value (some fault)) :=
    ⟨m.heap, _, _, .refl, m.process.allFrames_perm.flatMap_right _, hacts, rfl⟩
  have hmessage {heap : Heap} : (Heap.Rule.acts bodies []).Governs (ctx.roots.newString fault.message) heap :=
    Heap.Rule.governs_newString fault.message
  unfold terminate
  simp only
  split
  · exact hends _ (hmessage.of_ok ‹_›)
  · exact hends _ (hmessage.of_error ‹_›).2

/-- What leaves the frames as they are does not fail for the code it is in. -/
def Rule.abiding (bodies : Body → Prop) : Rule where
  Holds := Abides bodies
  faults fault := fault.concernsCode = false
  refl := .refl
  trans := .trans
  heapRule := .acts bodies []
  fault h := h
  heapFault := Fault.concernsCode_of_isOperational
  heap h := ⟨h, rfl⟩
  journal _ _ := ⟨.refl, rfl⟩
  operands h _ := ⟨.refl, by simp [Process.bare, Frame.bare, h]⟩

end Machine

namespace Exec

open Machine.Rule (governs_onHeap governs_note governs_updateFrame governs_push governs_resolve governs_assign)

/-- The operation leaves the frames as they are, and does not fail for the code it is in. -/
abbrev Abides {α : Type} (bodies : Body → Prop) (x : Exec α) (m : Machine) : Prop :=
  (Machine.Rule.abiding bodies).Governs x m

/-- The operation lets the machine go on, and does not fail for the code it is in. -/
def Goes {α : Type} (bodies : Body → Prop) (x : Exec α) (m : Machine) : Prop :=
  Ends x m (fun _ m' => m.Goes bodies m') fun fault m' => fault.concernsCode = false ∧ m.Fails bodies fault m'

variable {bodies : Body → Prop} {m : Machine} {ctx : Context}

section

variable {α β : Type} {x : Exec α} {f : α → Exec β}

theorem Abides.goes (h : Abides bodies x m) : Goes bodies x m :=
  h.mono (fun _ _ h => .stay h) fun _ _ h => ⟨h.1, h.2.fails⟩

theorem Abides.then (h : Abides bodies x m) (hf : ∀ a m', m.Abides bodies m' → Goes bodies (f a) m') :
    Goes bodies (x >>= f) m := by
  unfold Goes
  rw [ends_bind]
  refine Ends.mono h (fun a k ha => ?_) fun _ _ h => ⟨h.1, h.2.fails⟩
  exact (hf a k ha).mono (fun _ _ h => ha.goes h) fun _ _ h => ⟨h.1, ha.then_fails h.2⟩

theorem Goes.throw {fault : Fault} (h : fault.concernsCode = false) : Goes bodies (throw fault : Exec α) m :=
  Abides.goes (.throw h)

theorem Goes.get {f : Machine → Exec α} (h : Goes bodies (f m) m) : Goes bodies (MonadState.get >>= f) m := h

end

/-! ## Calls -/

/-- A call begins, or nothing has come of it and no handler can answer. -/
def Begins (bodies : Body → Prop) (kind : FrameKind) (x : Exec Unit) (m : Machine) : Prop :=
  Ends x m
    (fun _ m' => ∃ frame : Frame, frame.Begins kind m.heap m'.heap ∧
      m'.process = { m.process with frames := frame :: m.process.frames })
    fun fault m' => fault.isRecoverable = false ∧ fault.concernsCode = false ∧
      Heap.Acts bodies [] m.heap m'.heap ∧ m'.process = m.process

theorem begins_activate {object : ObjectId} {method : Method}
    (hmethod : (m.heap.object object).shape.method? = some method) (selector : String) (receiver lexical : Value)
    (args : List Value) (kind : FrameKind) :
    Begins bodies kind (activate ctx object method selector receiver lexical args kind) m := by
  unfold activate Begins
  split
  · exact ⟨rfl, rfl, .refl, rfl⟩
  · simp only [ends_bind, ends_get]
    split
    · exact ⟨rfl, rfl, .refl, rfl⟩
    · rw [ends_bind, ends_onHeap]
      refine ends_iff.2 ⟨fun records heap hrecords => ?_, fun fault heap herror => ?_⟩
      · simp only [ends_bind, note, ends_modify]
        exact ⟨_, .call hmethod hrecords rfl, rfl⟩
      · obtain ⟨hfault, hacts⟩ := Heap.acts_newRecords_error herror
        exact ⟨Fault.isRecoverable_of_isOperational hfault, Fault.concernsCode_of_isOperational hfault, hacts, rfl⟩

theorem begins_callBlock (block : ObjectId) (selector : String) (args : List Value) (kind : FrameKind) :
    Begins bodies kind (callBlock ctx block selector args kind) m := by
  unfold callBlock Begins
  simp only [ends_bind, ends_get]
  split
  · exact ⟨rfl, rfl, .refl, rfl⟩
  · exact begins_activate ‹_› _ _ _ _ _

theorem Begins.goes {x : Exec Unit} (h : Begins bodies .call x m) : Goes bodies x m := by
  refine h.mono (fun _ m' hm => ?_) fun fault m' hm => ?_
  · obtain ⟨frame, hframe, hprocess⟩ := hm
    exact .call (.refl m) hframe hprocess
  · exact ⟨hm.2.1, Machine.Abides.fails ⟨hm.2.2.1, by rw [hm.2.2.2]⟩⟩

/-! ## Errors -/

theorem map_bare_suspend (process : Process) :
    (process.suspend.2.ownFrames.map Frame.bare).Perm (process.ownFrames.map Frame.bare) := by
  refine List.Perm.map _ ?_
  simp only [Process.suspend, Process.ownFrames, List.nil_append, List.flatMap_append, List.flatMap_singleton,
    Option.getD_some]
  exact List.perm_append_comm

theorem goes_raise (value : Value) (cause : Option Fault) : Goes bodies (raise ctx value cause) m := by
  unfold raise
  refine .get ?_
  split
  · refine Abides.then (governs_note _) fun _ m' _ => ?_
    exact .close (Machine.closes_conclude ctx value _ m')
  · -- a fault after the stack was parked leaves it parked
    have hfails {m' : Machine} {fault : Fault} (hfault : fault.isRecoverable = false)
        (hacts : Heap.Acts bodies [] m.heap m'.heap) (hprocess : m'.process = m.process.suspend.2) :
        m.Fails bodies fault m' := by
      refine ⟨hacts, by rw [hprocess]; rfl, by rw [hprocess]; exact map_bare_suspend m.process, fun h => ?_⟩
      rw [hfault] at h
      cases h
    have hmakes (payload : Payload) : (Heap.Rule.acts bodies []).Governs (Heap.newWithPayload payload) m.heap :=
      Heap.Rule.governs_newWithPayload payload
    unfold Goes
    simp only [ends_bind, suspend, ends_modifyGet, ends_onHeap]
    refine ends_iff.2 ⟨fun token heap htoken => ?_, fun fault heap herror => ?_⟩
    · have hacts : Heap.Acts bodies [] m.heap heap := (hmakes _).of_ok htoken
      simp only [note, ends_modify]
      refine Ends.mono (@begins_callBlock bodies _ _ _ _ _ _) (fun _ m' hm => ?_) fun fault m' hm => ?_
      · obtain ⟨frame, hframe, hprocess⟩ := hm
        exact .park (.refl m) hacts hframe hprocess
      · exact ⟨hm.2.1, hfails hm.1 (hacts.trans hm.2.2.1) hm.2.2.2⟩
    · obtain ⟨hfault, hacts⟩ := (hmakes _).of_error herror
      exact ⟨Fault.concernsCode_of_isOperational hfault,
        hfails (Fault.isRecoverable_of_isOperational hfault) hacts rfl⟩

theorem goes_restore (hm : m.process.Stacked) (token value : Value) : Goes bodies (restore token value) m := by
  unfold Goes Ends
  by_cases h : ∃ index frames, m.heap.token? token = some (m.process.id, index) ∧
      m.process.parked[index]? = some (some frames)
  · obtain ⟨index, frames, htoken, hparked⟩ := h
    obtain ⟨top, callers, rfl⟩ := List.exists_cons_of_ne_nil (hm frames (List.mem_of_getElem? hparked))
    rw [restore_of_token? htoken hparked]
    exact .resume (.refl m) hparked rfl rfl
  · rw [restore_of_ne fun index frames htoken hparked => h ⟨index, frames, htoken, hparked⟩]
    exact ⟨rfl, Machine.Abides.fails (.refl m)⟩

/-! ## Sends -/

theorem goes_follow (hm : m.process.Stacked) (reply : Reply) : Goes bodies (follow ctx reply) m := by
  cases reply with
  | answer value => exact Abides.goes (governs_push value)
  | halt value =>
    refine Abides.then (governs_note _) fun _ m' _ => ?_
    exact .close (Machine.closes_conclude ctx value _ m')
  | raise value => exact goes_raise value none
  | handler block =>
    refine Abides.goes (governs_updateFrame fun top callers hframes => ⟨.refl, ?_⟩)
    simp [Process.bare, Frame.bare, Frame.push, hframes]
  | restore token value => exact goes_restore hm token value

theorem goes_callNative (hm : m.process.Stacked) (native : Native) (selector : String) (receiver : Value)
    (args : List Value) : Goes bodies (callNative ctx native selector receiver args) m := by
  unfold callNative
  split
  · exact .throw rfl
  · rename_i hlength
    have harity : (args.map m.heap.effective).length = native.arity :=
      (List.length_map _).trans (not_not.1 hlength)
    refine .get (.get (Abides.then (governs_onHeap (Heap.Rule.governs_native native _ harity)) fun reply m' h => ?_))
    exact goes_follow (hm.of_bare h.process_eq) reply

theorem goes_apply (hm : m.process.Stacked) (holder : ObjectId) (value receiver : Value) (selector : String)
    (args : List Value) : Goes bodies (apply ctx holder value receiver selector args) m := by
  refine .get ?_
  split
  · exact Abides.goes (governs_assign (fun _ _ _ => trivial) receiver)
  · exact goes_callNative hm _ selector receiver args
  · rename_i method object hbehavior
    split
    · exact .get (Abides.goes (governs_push _))
    · exact .get (begins_activate (method_of_behaviorOf hbehavior) _ _ _ _ _).goes
  · exact .get (Abides.goes (governs_push _))

theorem goes_dispatch (hm : m.process.Stacked) (receiver : Value) (selector : String) (parent : Option String)
    (args : List Value) : Goes bodies (dispatch ctx receiver selector parent args) m := by
  refine .get ?_
  simp only
  split
  · exact (begins_callBlock _ _ _ _).goes
  · refine Abides.then (governs_resolve receiver selector parent) fun result m' h => ?_
    cases result with
    | found holder value => exact goes_apply (hm.of_bare h.process_eq) holder value receiver selector args
    | missing => exact .throw rfl
    | ambiguous first second => exact Abides.then (governs_note _) fun _ _ _ => .throw rfl

end Exec

/-! ## Reading and marking -/

/-- The instruction copies an object literal. -/
def Instruction.makesObject : Instruction → Bool
  | .pushLiteral .object _ => true
  | _ => false

/-- The frame past an instruction that has not been carried out yet. -/
def Frame.past (i : Instruction) (frame : Frame) : Frame := { frame with ip := frame.ip + i.length }

/-- The frame past an instruction; an object literal has marked it. -/
def Frame.after (i : Instruction) (frame : Frame) : Frame :=
  { frame.past i with captured := frame.captured || i.makesObject }

def Process.past (i : Instruction) (process : Process) : Process :=
  { process with frames := process.frames.modifyHead (Frame.past i) }

def Process.after (i : Instruction) (process : Process) : Process :=
  { process with frames := process.frames.modifyHead (Frame.after i) }

/-- The process with its innermost frame marked. -/
def Process.mark (process : Process) : Process :=
  { process with frames := process.frames.modifyHead ({ · with captured := true }) }

namespace Machine

abbrev past (i : Instruction) (m : Machine) : Machine := { m with process := m.process.past i }

abbrev after (i : Instruction) (m : Machine) : Machine := { m with process := m.process.after i }

abbrev mark (m : Machine) : Machine := { m with process := m.process.mark }

/-- The next instruction of the innermost frame. -/
def Reads (m : Machine) (i : Instruction) : Prop :=
  ∃ top callers, m.process.frames = top :: callers ∧ Instruction.decode top.body.code.bytes top.ip = .ok i

/-- The next instruction copies an object literal whose unit is `body`. -/
def Writes (m : Machine) (body : Body) : Prop :=
  ∃ top callers index kind params code, m.process.frames = top :: callers ∧
    Instruction.decode top.body.code.bytes top.ip = .ok (.pushLiteral .object index) ∧
    top.body.code.literals[index.toNat]? = some (.object kind params code) ∧
    body = ⟨(code.getD {}).finalize, top.body.site ++ [index.toNat]⟩

/-- What an instruction that succeeds does. -/
inductive Passes (bodies : Body → Prop) (m : Machine) : Machine → Prop
  | go {i : Instruction} {m' : Machine} (hreads : m.Reads i) (hi : i ≠ .returnTop)
      (hmakes : i.makesObject = true → (m.after i).Abides bodies m') (h : (m.after i).Goes bodies m') : Passes bodies m m'
  | back {top caller : Frame} {callers : List Frame} {value : Value} {m' : Machine} (hreads : m.Reads .returnTop)
      (hframes : m.process.frames = top :: caller :: callers) (hheap : m'.heap = m.heap.releaseAll top.releasable)
      (hprocess : m'.process = { m.process with frames := caller.push value :: callers }) : Passes bodies m m'
  | close {m' : Machine} (hreads : m.Reads .returnTop) (h : m.Closes bodies m') : Passes bodies m m'

/-- What an instruction that fails leaves behind. Only an object literal can fail before its frame is marked. -/
inductive Stalls (bodies : Body → Prop) (m : Machine) (fault : Fault) (k : Machine) : Prop
  | unread (hfault : fault.isRecoverable = false) (h : m.Fails bodies fault k)
  | unmarked {i : Instruction} (hreads : m.Reads i) (hfault : fault.isRecoverable = false)
      (h : (m.past i).Fails bodies fault k)
  | read {i : Instruction} (hreads : m.Reads i) (hi : i ≠ .returnTop) (h : (m.after i).Fails bodies fault k)

end Machine

namespace Exec

open Machine.Rule (governs_updateFrame governs_push governs_pop governs_message governs_addSlot)

variable {bodies : Body → Prop} {m : Machine} {ctx : Context}

theorem past_eq_after {i : Instruction} (hi : i.makesObject = false) (process : Process) :
    process.past i = process.after i := by
  have hframe : Frame.past i = Frame.after i := by
    funext frame
    simp [Frame.after, hi, Frame.past]
  rw [Process.past, Process.after, hframe]

/-- Reading an instruction is going past it. -/
theorem fetch_past : Ends fetch m
    (fun i m' => m.Reads i ∧ m'.heap = m.heap ∧ m'.process = m.process.past i)
    fun fault m' => m' = m ∧ fault.isRecoverable = false := by
  unfold fetch Exec.frame
  simp only [ends_bind, ends_get]
  split
  · rename_i top callers hframes
    rw [ends_pure, ends_liftExcept]
    refine ⟨fun i hdecode => ?_, fun fault hdecode => ⟨rfl, isRecoverable_of_decode hdecode⟩⟩
    simp only [note, ends_modify]
    unfold Ends updateFrame Machine.note
    simp only [hframes]
    refine ⟨⟨top, callers, hframes, hdecode⟩, rfl, ?_⟩
    simp only [Process.past, hframes, List.modifyHead_cons, Frame.past]
  · exact ⟨rfl, rfl⟩

/-! ## Literals -/

theorem code_literal_error {code : Code} {index : Nat} {fault : Fault} (h : code.literal index = .error fault) :
    fault.isRecoverable = false := by
  obtain ⟨-, rfl⟩ := Code.literal_eq_error_iff.1 h
  rfl

/-- Every literal that is no object leaves the frames as they are. -/
theorem literal_abides {kind : LiteralKind} (hkind : kind ≠ .object) (index : UInt8) :
    Ends (literal ctx kind index) m (fun _ m' => m.Abides bodies m')
      fun fault m' => fault.isRecoverable = false ∧ m.Abides bodies m' := by
  have hheap {x : HeapM Value} (hx : (Heap.Rule.acts bodies []).Governs x m.heap) :
      Ends (onHeap x) m (fun _ m' => m.Abides bodies m') fun fault m' => fault.isRecoverable = false ∧ m.Abides bodies m' :=
    ends_onHeap.2 (hx.mono (fun _ _ h => ⟨h, rfl⟩)
      fun _ _ h => ⟨Fault.isRecoverable_of_isOperational h.1, h.2, rfl⟩)
  unfold literal Exec.frame
  split
  · exact .refl m
  · exact .refl m
  · simp only [ends_bind, ends_get]
    split
    · rename_i top callers hframes
      simp only [ends_pure, ends_liftExcept]
      refine ⟨fun l _ => ?_, fun fault hl => ⟨code_literal_error hl, .refl m⟩⟩
      split
      · exact ⟨rfl, .refl m⟩
      · rename_i hl
        rw [not_not] at hl
        split
        · split
          · exact .refl m
          · exact ⟨rfl, .refl m⟩
        · exact hheap (Heap.Rule.governs_newFloat _)
        · exact hheap (Heap.Rule.governs_intern trivial _)
        · exact absurd hl.symm hkind
    · exact ⟨rfl, .refl m⟩

/-- Once the template is there the frame is marked, and only then is the literal copied. -/
theorem instantiate_marks {site : Site} {code : Option Code} (hbody : bodies ⟨(code.getD {}).finalize, site⟩)
    (kind : ObjectKind) (params : List String) {top : Frame} {callers : List Frame}
    (hframes : m.process.frames = top :: callers) :
    Ends (instantiate site kind params code) m (fun _ m' => m.mark.Abides bodies m')
      fun fault m' => fault.isRecoverable = false ∧ (m.Abides bodies m' ∨ m.mark.Abides bodies m') := by
  have htemplate : (Heap.Rule.acts bodies []).Governs (Heap.template site kind params code) m.heap :=
    Heap.Rule.governs_template hbody kind params
  have hcopy (template : ObjectId) (scope : Value) (heap : Heap) :
      (Heap.Rule.acts bodies []).Governs (Heap.instantiate template scope) heap :=
    Heap.Rule.governs_instantiate template scope
  unfold instantiate
  rw [ends_bind, ends_onHeap]
  refine htemplate.mono (fun template heap hacts => ?_) fun fault heap hfault => ?_
  · have hmarked : m.mark.Abides bodies (Machine.mark { m with heap }) := ⟨hacts, rfl⟩
    unfold Exec.frame
    simp only [ends_bind, ends_get, hframes, ends_pure]
    have hupdate : updateFrame ({ · with captured := true }) { m with heap } = .ok () (Machine.mark { m with heap }) := by
      simp [updateFrame, Process.mark, hframes]
    unfold Ends
    rw [hupdate]
    simp only
    refine ends_onHeap.2 ((hcopy _ _ _).mono (fun id heap' h => ?_) fun fault heap' h => ?_)
    · exact hmarked.trans ⟨h, rfl⟩
    · exact ⟨Fault.isRecoverable_of_isOperational h.1, .inr (hmarked.trans ⟨h.2, rfl⟩)⟩
  · exact ⟨Fault.isRecoverable_of_isOperational hfault.1, .inl ⟨hfault.2, rfl⟩⟩

theorem literal_marks {index : UInt8}
    (hbodies : ∀ top callers kind params code, m.process.frames = top :: callers →
      top.body.code.literals[index.toNat]? = some (.object kind params code) →
      bodies ⟨(code.getD {}).finalize, top.body.site ++ [index.toNat]⟩) :
    Ends (literal ctx .object index) m (fun _ m' => m.mark.Abides bodies m')
      fun fault m' => fault.isRecoverable = false ∧ (m.Abides bodies m' ∨ m.mark.Abides bodies m') := by
  unfold literal Exec.frame
  simp only [ends_bind, ends_get]
  split
  · rename_i top callers hframes
    simp only [ends_pure, ends_liftExcept]
    refine ⟨fun l hl => ?_, fun fault hl => ⟨code_literal_error hl, .inl (.refl m)⟩⟩
    split
    · exact ⟨rfl, .inl (.refl m)⟩
    · rename_i hkind
      rw [not_not] at hkind
      cases l with
      | int n => cases hkind
      | float x => cases hkind
      | text s => cases hkind
      | object kind params code =>
        exact instantiate_marks (hbodies top callers kind params code hframes (Code.literal_eq_ok_iff.1 hl)) kind
          params hframes
  · exact ⟨rfl, .inl (.refl m)⟩

/-! ## Instructions -/

theorem goes_execute {i : Instruction} (hm : m.process.Stacked) (hi : i ≠ .returnTop)
    (hliteral : ∀ kind index, i ≠ .pushLiteral kind index) : Goes bodies (execute ctx i) m := by
  cases i with
  | pushSelf => exact Abides.goes (governs_updateFrame fun _ _ hframes => Machine.Rule.operands _ hframes _)
  | pushLiteral kind index => exact absurd rfl (hliteral kind index)
  | pop => exact Abides.goes (governs_pop.bind fun _ _ _ => .pure PUnit.unit)
  | send kind count =>
    rw [show execute ctx (.send kind count) = _ from send_eq kind count]
    exact Abides.then (governs_message kind count) fun _ _ h => goes_dispatch (hm.of_bare h.process_eq) _ _ _ _
  | returnTop => exact absurd rfl hi
  | addSlot kind => exact Abides.goes (governs_addSlot fun _ _ _ _ _ => trivial)

/-- Returning goes back to the caller or ends the process. -/
theorem execute_returnTop (bodies : Body → Prop) {top : Frame} {callers : List Frame} (hframes : m.process.frames = top :: callers) :
    Ends (execute ctx .returnTop) m
      (fun _ m' => m.Closes bodies m' ∨ ∃ caller rest value, callers = caller :: rest ∧
        m'.heap = m.heap.releaseAll top.releasable ∧
        m'.process = { m.process with frames := caller.push value :: rest })
      fun _ _ => False := by
  have hheap : m.heap.releaseAll ([top].flatMap (·.releasable)) = m.heap.releaseAll top.releasable :=
    congrArg m.heap.releaseAll (List.flatMap_singleton (·.releasable) top)
  show Ends (returnTop ctx) m _ _
  unfold returnTop Exec.frame
  simp only [ends_bind, ends_get, hframes, ends_pure]
  split
  · simp only [leave, note, hframes, ends_bind, ends_modify]
    exact .inl (Machine.closes_leave hframes hheap rfl ctx _ _)
  · simp only [leave, effective, hframes, ends_bind, ends_get, ends_pure, ends_modify]
    cases callers with
    | nil => exact .inl (Machine.closes_leave hframes hheap rfl ctx _ _)
    | cons caller rest => exact .inr ⟨caller, rest, _, rfl, hheap, rfl⟩

theorem mark_past (index : UInt8) (process : Process) :
    (process.past (.pushLiteral .object index)).mark = process.after (.pushLiteral .object index) := by
  have hframe (frame : Frame) : { Frame.past (.pushLiteral .object index) frame with captured := true } =
      Frame.after (.pushLiteral .object index) frame := by
    simp [Frame.after, Instruction.makesObject]
  cases hframes : process.frames <;> simp [Process.past, Process.after, Process.mark, hframes, hframe]

theorem releasable_past (i : Instruction) (process : Process) :
    (process.past i).ownFrames.flatMap (·.releasable) = process.ownFrames.flatMap (·.releasable) := by
  cases hframes : process.frames with
  | nil => simp [Process.past, Process.ownFrames, hframes]
  | cons top callers =>
    have htop : (top.past i).releasable = top.releasable := rfl
    simp [Process.past, Process.ownFrames, hframes, htop]

variable {fetched : Machine} {i : Instruction}

/-- An instruction that copies no object literal changes only the place of its frame. -/
theorem abides_past (hi : i.makesObject = false) (hheap : fetched.heap = m.heap)
    (hprocess : fetched.process = m.process.past i) : (m.after i).Abides bodies fetched :=
  ⟨by rw [hheap], by rw [hprocess, past_eq_after hi]⟩

theorem execute_pushLiteral {kind : LiteralKind} {index : UInt8} (hreads : m.Reads (.pushLiteral kind index))
    (hheap : fetched.heap = m.heap) (hprocess : fetched.process = m.process.past (.pushLiteral kind index)) :
    Ends (execute ctx (.pushLiteral kind index)) fetched
      (fun _ m' => m.Passes m.Writes m') fun fault k => m.Stalls m.Writes fault k := by
  have hpush {k : Machine} (h : (m.after (.pushLiteral kind index)).Abides m.Writes k) (value : Value) :
      Ends (push value) k (fun _ m' => m.Passes m.Writes m') fun fault k => m.Stalls m.Writes fault k :=
    have hkept : Abides m.Writes (push value) k := governs_push value
    hkept.mono (fun _ _ h' => .go hreads nofun (fun _ => h.trans h') (.stay (h.trans h')))
      fun _ _ h' => .read hreads nofun (h.trans h'.2).fails
  show Ends (literal ctx kind index >>= push) _ _ _
  rw [ends_bind]
  by_cases hkind : kind = .object
  · subst hkind
    have hpast : (m.past (.pushLiteral .object index)).Abides m.Writes fetched := ⟨by rw [hheap], by rw [hprocess]⟩
    have hmarked : (m.after (.pushLiteral .object index)).Abides m.Writes fetched.mark :=
      ⟨by rw [hheap], by rw [Machine.mark, hprocess, mark_past]⟩
    have hbodies (top : Frame) (callers : List Frame) (kind : ObjectKind) (params : List String) (code : Option Code)
        (hframes : fetched.process.frames = top :: callers)
        (hl : top.body.code.literals[index.toNat]? = some (.object kind params code)) :
        m.Writes ⟨(code.getD {}).finalize, top.body.site ++ [index.toNat]⟩ := by
      obtain ⟨found, rest, hfound, hdecode⟩ := hreads
      rw [hprocess, Process.past, hfound, List.modifyHead_cons] at hframes
      cases hframes
      exact ⟨found, callers, index, kind, params, code, hfound, hdecode, hl, rfl⟩
    refine (literal_marks hbodies).mono (fun value k h => hpush (hmarked.trans h) value) fun fault k h => ?_
    rcases h.2 with h' | h'
    · exact .unmarked hreads h.1 (hpast.trans h').fails
    · exact .read hreads nofun (hmarked.trans h').fails
  · have hmakes : (Instruction.pushLiteral kind index).makesObject = false := by
      cases kind with
      | object => exact absurd rfl hkind
      | _ => rfl
    have hpast : (m.after (.pushLiteral kind index)).Abides m.Writes fetched := abides_past hmakes hheap hprocess
    exact (literal_abides hkind index).mono (fun value k h => hpush (hpast.trans h) value) fun fault k h =>
      .read hreads nofun (hpast.trans h.2).fails

/-- Sends and the other instructions that neither push a literal nor return. -/
theorem execute_goes (hm : m.process.Stacked) (hreads : m.Reads i) (hheap : fetched.heap = m.heap)
    (hprocess : fetched.process = m.process.past i) (hi : i ≠ .returnTop)
    (hliteral : ∀ kind index, i ≠ .pushLiteral kind index) :
    Ends (execute ctx i) fetched (fun _ m' => m.Passes m.Writes m') fun fault k => m.Stalls m.Writes fault k := by
  have hmakes : i.makesObject = false := by
    cases i with
    | pushLiteral kind index => exact absurd rfl (hliteral kind index)
    | _ => rfl
  have hpast : (m.after i).Abides m.Writes fetched := abides_past hmakes hheap hprocess
  have hstacked : fetched.process.Stacked := by
    rw [hprocess]
    exact hm
  refine (goes_execute hstacked hi hliteral).mono (fun _ m' h => .go hreads hi (fun h => ?_) (hpast.goes h))
    fun fault k h => .read hreads hi (hpast.then_fails h.2)
  rw [hmakes] at h
  cases h

theorem execute_passes (hm : m.process.Stacked) (hreads : m.Reads i) (hheap : fetched.heap = m.heap)
    (hprocess : fetched.process = m.process.past i) :
    Ends (execute ctx i) fetched (fun _ m' => m.Passes m.Writes m') fun fault k => m.Stalls m.Writes fault k := by
  cases i with
  | pushLiteral kind index => exact execute_pushLiteral hreads hheap hprocess
  | returnTop =>
    obtain ⟨top, callers, hframes, hdecode⟩ := hreads
    have hreads : m.Reads .returnTop := ⟨top, callers, hframes, hdecode⟩
    have hfetched : fetched.process.frames = top.past .returnTop :: callers := by
      rw [hprocess, Process.past, hframes, List.modifyHead_cons]
    refine (execute_returnTop m.Writes hfetched).mono (fun _ m' h => ?_) fun _ _ h => h.elim
    rcases h with ⟨heap, ids, outcome, hbefore, hids, hafter, hfinish⟩ | ⟨caller, rest, value, rfl, hrelease, hback⟩
    · rw [hheap] at hbefore
      rw [hprocess, releasable_past] at hids
      rw [hprocess] at hfinish
      exact .close hreads ⟨heap, ids, outcome, hbefore, hids, hafter, hfinish⟩
    · rw [hheap] at hrelease
      rw [hprocess] at hback
      exact .back hreads hframes hrelease hback
  | _ => exact execute_goes hm hreads hheap hprocess (by simp) (by simp)

/-- What an instruction does, whether it succeeds or fails. -/
theorem step_passes (ctx : Context) (hm : m.process.Stacked) :
    Ends (step ctx) m (fun _ m' => m.Passes m.Writes m') fun fault k => m.Stalls m.Writes fault k := by
  rw [step_eq, ends_bind]
  refine fetch_past.mono (fun i fetched h => execute_passes hm h.1 h.2.1 h.2.2) fun fault k h => ?_
  rw [h.1]
  exact .unread h.2 (Machine.Abides.refl m).fails

end Exec

namespace Machine

variable {bodies : Body → Prop} {m k m' : Machine} {ctx : Context} {fault : Fault}

theorem Closes.isFinished (h : m.Closes bodies m') : m'.process.isFinished = true := by
  obtain ⟨heap, ids, outcome, -, -, -, hprocess⟩ := h
  rw [hprocess]
  rfl

/-- After a fault the handler begins or the process ends. -/
theorem goes_fail (bodies : Body → Prop) (ctx : Context) (fault : Fault) (m : Machine) :
    m.Goes bodies (m.fail ctx fault) ∧ (fault.isRecoverable = false → m.Closes bodies (m.fail ctx fault)) := by
  have hreport : Exec.Goes bodies
      (do let message ← Exec.onHeap (ctx.roots.newString fault.message)
          Exec.raise ctx message (some fault)) m :=
    Exec.Abides.then (Rule.governs_onHeap (Heap.Rule.governs_newString _)) fun message _ _ =>
      Exec.goes_raise message (some fault)
  simp only [fail]
  split
  · rename_i hfault
    refine ⟨?_, fun h => absurd hfault (by simp [h])⟩
    split
    · exact hreport.of_ok ‹_›
    · exact .close ((hreport.of_error ‹_›).2.closes (closes_terminate ctx _ _))
  · exact ⟨.close (closes_terminate ctx fault m), fun _ => closes_terminate ctx fault m⟩

/-- One instruction: it passes, or it stalls and what follows from its fault is done at once. -/
theorem advance_cases (ctx : Context) (hm : m.process.Stacked) :
    (∃ a, Exec.step ctx m = .ok a (m.advance ctx) ∧ m.Passes m.Writes (m.advance ctx)) ∨
      ∃ fault k, Exec.step ctx m = .error fault k ∧ m.Stalls m.Writes fault k ∧ k.Goes m.Writes (m.advance ctx) ∧
        (fault.isRecoverable = false → k.Closes m.Writes (m.advance ctx)) := by
  unfold advance
  cases hstep : Exec.step ctx m with
  | ok a m' => exact .inl ⟨a, rfl, (Exec.step_passes ctx hm).of_ok hstep⟩
  | error fault k =>
    obtain ⟨hgoes, hcloses⟩ := goes_fail m.Writes ctx fault k
    exact .inr ⟨fault, k, rfl, (Exec.step_passes ctx hm).of_error hstep, hgoes, hcloses⟩

/-- Where a frame of a process comes from that has gone on for one instruction. -/
inductive Origin (m m' : Machine) (frame' : Frame) : Prop
  | old {frame : Frame} (hframe : frame ∈ m.process.ownFrames) (h : frame'.bare = frame.bare)
  | moved {top : Frame} {callers : List Frame} {i : Instruction} (hframes : m.process.frames = top :: callers)
      (hdecode : Instruction.decode top.body.code.bytes top.ip = .ok i) (hi : i ≠ .returnTop)
      (h : frame'.bare = (top.after i).bare)
  | new {kind : FrameKind} {heap : Heap} (hacts : Heap.Acts m.Writes [] m.heap heap)
      (h : frame'.Begins kind heap m'.heap)

theorem mem_of_map_bare {frames frames' : List Frame} (h : (frames'.map Frame.bare).Perm (frames.map Frame.bare))
    {frame' : Frame} (hframe' : frame' ∈ frames') : ∃ frame ∈ frames, frame'.bare = frame.bare := by
  obtain ⟨frame, hframe, heq⟩ := List.mem_map.1 (h.mem_iff.1 (List.mem_map_of_mem hframe'))
  exact ⟨frame, hframe, heq.symm⟩

theorem Abides.mem (h : m.Abides bodies m') {frame' : Frame} (hframe' : frame' ∈ m'.process.ownFrames) :
    ∃ frame ∈ m.process.ownFrames, frame'.bare = frame.bare :=
  mem_of_map_bare (.of_eq (Process.map_bare_of_bare h.process_eq)) hframe'

/-- A frame is one of those there were before, or it has just begun. -/
theorem Goes.origin (h : m.Goes bodies m') {frame' : Frame} (hframe' : frame' ∈ m'.process.ownFrames) :
    (∃ frame ∈ m.process.ownFrames, frame'.bare = frame.bare) ∨
      ∃ kind heap, Heap.Acts bodies [] m.heap heap ∧ frame'.Begins kind heap m'.heap := by
  cases h with
  | stay h => exact .inl (h.mem hframe')
  | @call k _ frame h hframe hprocess =>
    have hmem : frame' = frame ∨ frame' ∈ k.process.ownFrames := by
      simpa [hprocess, Process.ownFrames, or_assoc] using hframe'
    rcases hmem with rfl | hmem
    · exact .inr ⟨.call, k.heap, h.acts, hframe⟩
    · exact .inl (h.mem hmem)
  | @park k _ frame heap error h hheap hframe hprocess =>
    have hmem : frame' = frame ∨ frame' ∈ k.process.suspend.2.ownFrames := by
      simpa [hprocess, Process.ownFrames, Process.suspend] using hframe'
    rcases hmem with rfl | hmem
    · exact .inr ⟨.handler error, heap, h.acts.trans hheap, hframe⟩
    · obtain ⟨found, hfound, heq⟩ := mem_of_map_bare (Exec.map_bare_suspend k.process) hmem
      obtain ⟨frame, hframe, heq'⟩ := h.mem hfound
      exact .inl ⟨frame, hframe, heq.trans heq'⟩
  | @resume k _ index top callers value h hparked hheap hprocess =>
    have hresumed (found : Frame) (hfound : found ∈ top :: callers) : found ∈ k.process.ownFrames :=
      List.mem_append_right _ (List.mem_flatMap.2 ⟨_, List.mem_of_getElem? hparked, hfound⟩)
    have hmem : frame'.bare = top.bare ∨ frame' ∈ k.process.ownFrames := by
      rw [hprocess] at hframe'
      rcases List.mem_append.1 hframe' with hframe' | hframe'
      · rcases List.mem_cons.1 hframe' with rfl | hframe'
        · exact .inl rfl
        · exact .inr (hresumed _ (.tail _ hframe'))
      · obtain ⟨stack, hstack, hframe'⟩ := List.mem_flatMap.1 hframe'
        rcases List.mem_or_eq_of_mem_set hstack with hstack | rfl
        · exact .inr (List.mem_append_right _ (List.mem_flatMap.2 ⟨stack, hstack, hframe'⟩))
        · cases hframe'
    rcases hmem with heq | hmem
    · obtain ⟨frame, hframe, heq'⟩ := h.mem (hresumed top List.mem_cons_self)
      exact .inl ⟨frame, hframe, heq.trans heq'⟩
    · exact .inl (h.mem hmem)
  | close h =>
    obtain ⟨heap, ids, outcome, -, -, -, hprocess⟩ := h
    rw [hprocess] at hframe'
    cases hframe'

/-- The innermost frame has moved on, and the others are where they were. -/
theorem mem_after {i : Instruction} (hreads : m.Reads i) (hi : i ≠ .returnTop) {frame frame' : Frame}
    (hframe : frame ∈ (m.after i).process.ownFrames) (h : frame'.bare = frame.bare) : m.Origin m' frame' := by
  obtain ⟨top, callers, hframes, hdecode⟩ := hreads
  have hmem : frame = top.after i ∨ frame ∈ m.process.ownFrames := by
    have : frame = top.after i ∨ frame ∈ callers ∨ frame ∈ m.process.parked.flatMap (·.getD []) := by
      simpa [Process.ownFrames, Process.after, hframes] using hframe
    simpa [Process.ownFrames, hframes] using this.imp_right Or.inr
  rcases hmem with rfl | hmem
  · exact .moved hframes hdecode hi h
  · exact .old hmem h

theorem Goes.origin_after {i : Instruction} (h : k.Goes m.Writes m') (hreads : m.Reads i) (hi : i ≠ .returnTop)
    (hk : (m.after i).Abides m.Writes k) {frame' : Frame} (hframe' : frame' ∈ m'.process.ownFrames) :
    m.Origin m' frame' := by
  rcases h.origin hframe' with ⟨frame, hframe, heq⟩ | ⟨kind, heap, hacts, hbegins⟩
  · obtain ⟨found, hfound, heq'⟩ := hk.mem hframe
    exact mem_after hreads hi hfound (heq.trans heq')
  · exact .new (hk.acts.trans hacts) hbegins

/-- The frames of a process that goes on after an instruction. -/
theorem origin_of_advance (hm : m.process.Stacked) (hgoing : (m.advance ctx).process.isFinished = false)
    {frame' : Frame} (hframe' : frame' ∈ (m.advance ctx).process.ownFrames) : m.Origin (m.advance ctx) frame' := by
  have hclosed {k : Machine} (h : k.Closes m.Writes (m.advance ctx)) : False := by
    rw [h.isFinished] at hgoing
    cases hgoing
  rcases advance_cases ctx hm with ⟨-, -, hpasses⟩ | ⟨fault, k, -, hstalls, hgoes, hcloses⟩
  · generalize m.advance ctx = m' at hpasses hframe' hclosed
    cases hpasses with
    | go hreads hi hmakes h => exact h.origin_after hreads hi (.refl _) hframe'
    | @back top caller callers value _ hreads hframes hheap hprocess =>
      rw [hprocess] at hframe'
      have hmem : frame' = caller.push value ∨ frame' ∈ m.process.ownFrames := by
        rcases List.mem_append.1 hframe' with hframe' | hframe'
        · rcases List.mem_cons.1 hframe' with rfl | hframe'
          · exact .inl rfl
          · exact .inr (List.mem_append_left _ (hframes ▸ .tail _ (.tail _ hframe')))
        · exact .inr (List.mem_append_right _ hframe')
      rcases hmem with rfl | hmem
      · have hcaller : caller ∈ m.process.ownFrames :=
          List.mem_append_left _ (hframes ▸ .tail _ List.mem_cons_self)
        exact .old hcaller rfl
      · exact .old hmem rfl
    | close hreads h => exact (hclosed h).elim
  · cases hstalls with
    | unread hfault h => exact (hclosed (hcloses hfault)).elim
    | unmarked hreads hfault h => exact (hclosed (hcloses hfault)).elim
    | read hreads hi h =>
      cases hfault : fault.isRecoverable with
      | false => exact (hclosed (hcloses hfault)).elim
      | true => exact hgoes.origin_after hreads hi ⟨h.acts, h.stays hfault⟩ hframe'

end Machine

end ProtoVm
