import ProtoVm.Proofs.Lifecycle
import ProtoVm.Proofs.StepEffect

/-!
# Installed handlers

A handler gets into a frame when a send of that frame installs it, and nothing else changes the handlers of a process.
What is installed is a block or the record of a call of one, and it stays what it is as long as it is there.
-/

namespace ProtoVm

namespace Heap

variable {bodies : Body → Prop} {copies : List Object} {heap heap' : Heap} {id : ObjectId} {value : Value}

/-- The value names a block, which may have gone. -/
def IsBlock (heap : Heap) (value : Value) : Prop :=
  ∃ id, value = .ref id ∧ heap.Issued id ∧ ∀ object, heap.get? id = some object → object.shape.isBlock = true

theorem isBlock_of_any (h : (heap.object? value).any (·.shape.isBlock) = true) : heap.IsBlock value := by
  cases value with
  | fixnum n => cases h
  | ref id =>
    have hblock : (heap.object id).shape.isBlock = true := h
    cases hget : heap.get? id with
    | none => simp [Heap.object, hget, Shape.isBlock, Shape.method?] at hblock
    | some object =>
      refine ⟨id, rfl, .of_get? hget, fun found hfound => ?_⟩
      rw [hget] at hfound
      cases hfound
      rwa [object_of_get? hget] at hblock

/-- What holds between an object and its edited forms holds between an object and what it has become. -/
theorem Deed.preserves (h : Deed bodies copies heap heap') (tidy : heap.Tidy) (hid : heap.Issued id)
    {R : Object → Object → Prop} (hrefl : ∀ object, R object object)
    (hedit : ∀ (edit : Edit) (object : Object) (shape version : Nat), R object ((edit.apply object).stamp shape version))
    (hassign : ∀ (object : Object) (index : Nat) (value : Value), R object (object.setSlot index value)) {object' : Object}
    (hget : heap'.get? id = some object') : ∃ object, heap.get? id = some object ∧ R object object' := by
  have hupdate (target : ObjectId) (edit : Object → Object) (hedit : ∀ object, R object (edit object))
      (hget : (heap.update target edit).get? id = some object') : ∃ object, heap.get? id = some object ∧ R object object' := by
    rw [get?_update] at hget
    split at hget
    · rename_i heq
      obtain ⟨object, hobject, rfl⟩ := Option.map_eq_some_iff.1 hget
      exact ⟨object, heq ▸ hobject, hedit object⟩
    · exact ⟨object', hget, hrefl _⟩
  cases h with
  | release target => exact ⟨object', get?_of_release hget, hrefl _⟩
  | act h =>
    cases h with
    | make h hok =>
      have hadds := allocate_adds tidy hok
      refine ⟨object', ?_, hrefl _⟩
      rwa [← hadds.get?_of_ne id]
      rintro rfl
      exact hadds.unissued hid
    | withdraw hok => exact ⟨object', get?_withdraw tidy hok id ▸ hget, hrefl _⟩
    | edit target edit =>
      exact hupdate target (fun object => (edit.apply object).stamp heap.nextShape (heap.version + 1))
        (fun object => hedit edit object _ _) hget
    | assign target index value => exact hupdate target (·.setSlot index value) (fun object => hassign object _ _) hget
    | aside hcells hfree hlimit hunit => exact ⟨object', get?_of_cells hcells id ▸ hget, hrefl _⟩

/-- The parts of an object that are settled when it is made. -/
structure Kept (object object' : Object) : Prop where
  behavior_eq : object'.shape.behavior = object.shape.behavior
  payload_eq : object'.payload = object.payload
  scope_eq : object'.scope = object.scope

theorem Deeds.settled (h : Deeds bodies copies heap heap') (tidy : heap.Tidy) (hid : heap.Issued id) {object' : Object}
    (hget : heap'.get? id = some object') : ∃ object, heap.get? id = some object ∧ Kept object object' := by
  induction h generalizing object' with
  | refl => exact ⟨object', hget, rfl, rfl, rfl⟩
  | tail hrest h ih =>
    have hedit (edit : Edit) (object : Object) (shape version : Nat) :
        Kept object ((edit.apply object).stamp shape version) :=
      have hedited := edit.apply_edited object
      ⟨hedited.behavior_eq, hedited.payload_eq, hedited.scope_eq⟩
    obtain ⟨middle, hmiddle, hkept⟩ := h.preserves (Deeds.tidy hrest tidy) (Deeds.issued hrest tidy hid)
      (fun _ => ⟨rfl, rfl, rfl⟩) hedit (fun _ _ _ => ⟨rfl, rfl, rfl⟩) hget
    obtain ⟨object, hobject, hkept'⟩ := ih hmiddle
    exact ⟨object, hobject, hkept.behavior_eq.trans hkept'.behavior_eq, hkept.payload_eq.trans hkept'.payload_eq,
      hkept.scope_eq.trans hkept'.scope_eq⟩

theorem Deeds.isBlock (h : Deeds bodies copies heap heap') (tidy : heap.Tidy) (hvalue : heap.IsBlock value) :
    heap'.IsBlock value := by
  obtain ⟨id, rfl, hid, hblock⟩ := hvalue
  refine ⟨id, rfl, h.issued tidy hid, fun object' hget => ?_⟩
  obtain ⟨object, hobject, hkept⟩ := h.settled tidy hid hget
  have hold := hblock object hobject
  unfold Shape.isBlock Shape.method? at hold ⊢
  rwa [hkept.behavior_eq]

theorem Touches.deeds {l : Mandate} (h : Touches l heap heap') : Deeds (fun _ => True) l.copies heap heap' := by
  induction h with
  | refl => exact .refl
  | tail _ h ih => exact ih.tail h.deed

end Heap

namespace Store

variable {s s' : Store} {value : Value}

theorem Leads.isBlock (h : s.Leads s') (tidy : s.heap.Tidy) (hvalue : s.heap.IsBlock value) :
    s'.heap.IsBlock value := by
  have hboth : s'.heap.Tidy ∧ s'.heap.IsBlock value := by
    induction h with
    | refl => exact ⟨tidy, hvalue⟩
    | tail hrest h ih =>
      obtain ⟨op, hpermits⟩ := h
      have htouches := touches_after hpermits
      exact ⟨htouches.tidy ih.1, htouches.deeds.isBlock ih.1 ih.2⟩
  exact hboth.2

end Store

namespace Process

/-- The handlers of all frames, running or parked. -/
def handlers (process : Process) : List Value := process.ownFrames.filterMap (·.handler)

/-- Each frame has the handler that it had. -/
structure SameHandlers (process process' : Process) : Prop where
  frames_eq : process'.frames.map (·.handler) = process.frames.map (·.handler)
  parked_eq : process'.parked = process.parked

variable {process process' process'' : Process}

theorem SameHandlers.refl (process : Process) : process.SameHandlers process := ⟨rfl, rfl⟩

theorem SameHandlers.trans (h : process.SameHandlers process') (h' : process'.SameHandlers process'') :
    process.SameHandlers process'' :=
  ⟨h'.frames_eq.trans h.frames_eq, h'.parked_eq.trans h.parked_eq⟩

theorem SameHandlers.handler?_eq (h : process.SameHandlers process') : process'.handler? = process.handler? := by
  have hfind (frames : List Frame) :
      frames.findSome? (·.handler) = (frames.map (·.handler)).findSome? fun handler => handler := by
    rw [List.findSome?_map]
    rfl
  rw [handler?, handler?, hfind, h.frames_eq, ← hfind]

theorem SameHandlers.handlers_eq (h : process.SameHandlers process') : process'.handlers = process.handlers := by
  have hfilter (frames : List Frame) :
      frames.filterMap (·.handler) = (frames.map (·.handler)).filterMap fun handler => handler := by
    rw [List.filterMap_map]
    rfl
  rw [handlers, handlers, ownFrames, ownFrames, List.filterMap_append, List.filterMap_append, hfilter, h.frames_eq,
    ← hfilter, h.parked_eq]

theorem sameHandlers_past (i : Instruction) (process : Process) : process.SameHandlers (process.past i) := by
  refine ⟨?_, rfl⟩
  unfold past
  cases process.frames <;> rfl

theorem mem_handlers {value : Value} :
    value ∈ process.handlers ↔ ∃ frame ∈ process.ownFrames, frame.handler = some value := List.mem_filterMap

theorem mem_handlers_of_handler? {value : Value} (h : process.handler? = some value) : value ∈ process.handlers := by
  obtain ⟨frame, hframe, hhandler⟩ := List.exists_of_findSome?_eq_some h
  exact mem_handlers.2 ⟨frame, List.mem_append_left _ hframe, hhandler⟩

end Process

/-- A call begins without a handler. -/
theorem Frame.Begins.handlers_eq {kind : FrameKind} {heap heap' : Heap} {frame : Frame}
    (h : frame.Begins kind heap heap') (process : Process) :
    { process with frames := frame :: process.frames }.handlers = process.handlers := by
  have hnone : frame.handler = none := by
    obtain ⟨-, -, rfl⟩ := h
    rfl
  exact List.filterMap_cons_none hnone

/-- Anything may be done to the heap. -/
def Heap.Rule.any : Heap.Rule where
  Holds _ _ := True
  faults _ := True
  refl _ := trivial
  trans _ _ := trivial
  copies := []
  assigns _ := True
  edits _ := True
  bodies _ := True
  lists := True
  operational _ := trivial
  make _ _ := trivial
  withdraw _ _ := trivial
  assign _ _ _ _ := trivial
  edit _ _ _ := trivial
  list _ _ _ _ := trivial
  aside _ _ _ _ _ _ := trivial

/-- Each frame has the handler that it had. -/
def Machine.Rule.handlers : Machine.Rule where
  Holds m m' := m.process.SameHandlers m'.process
  faults _ := True
  refl m := .refl m.process
  trans := .trans
  heapRule := .any
  fault _ := trivial
  heapFault _ := trivial
  heap {m _} _ := .refl m.process
  journal m _ := .refl m.process
  operands h _ := ⟨by simp [h], rfl⟩

theorem Machine.Rule.lenient_handlers : Rule.handlers.Lenient where
  anyFault _ := trivial
  anyBody _ := trivial
  mark h := ⟨by simp [h], rfl⟩

namespace Exec

open Machine.Rule (lenient_handlers governs_note governs_updateFrame governs_push governs_pop governs_message
  governs_resolve governs_assign governs_addSlot governs_literal)

/-- The operation leaves each frame the handler that it had. -/
abbrev LeavesHandlers {α : Type} (x : Exec α) (m : Machine) : Prop := Machine.Rule.handlers.Governs x m

/-- Handlers after the operation are old ones or blocks. -/
def Installs (x : Exec Unit) (m : Machine) : Prop :=
  Ends x m (fun _ m' => ∀ value ∈ m'.process.handlers, value ∈ m.process.handlers ∨ m'.heap.IsBlock value)
    fun fault m' => fault.isRecoverable = true → m.process.SameHandlers m'.process

variable {m : Machine} {ctx : Context}

section

variable {α β : Type} {x : Exec α}

theorem LeavesHandlers.installs {x : Exec Unit} (hx : LeavesHandlers x m) : Installs x m :=
  hx.mono (fun _ _ h _ hvalue => .inl (h.handlers_eq ▸ hvalue)) fun _ _ h _ => h.2

theorem LeavesHandlers.then {f : α → Exec Unit} (hx : LeavesHandlers x m) (hf : ∀ a m', Installs (f a) m') :
    Installs (x >>= f) m := by
  unfold Installs
  rw [ends_bind]
  refine Ends.mono hx (fun a k ha => ?_) fun _ _ h _ => h.2
  have hsame : m.process.SameHandlers k.process := ha
  rw [← hsame.handlers_eq]
  exact (hf a k).mono (fun _ _ h => h) fun _ _ h hfault => ha.trans (h hfault)

theorem Installs.throw {fault : Fault} : Installs (throw fault) m := fun _ => .refl _

theorem Installs.get {f : Machine → Exec Unit} (h : Installs (f m) m) : Installs (MonadState.get >>= f) m := h

end

/-! ## Calls and errors -/

theorem Begins.installs {bodies : Body → Prop} {x : Exec Unit} (h : Begins bodies .call x m) : Installs x m := by
  refine h.mono (fun _ m' hm value hvalue => .inl ?_) fun fault m' hm hfault => ?_
  · obtain ⟨frame, hframe, hprocess⟩ := hm
    rwa [hprocess, hframe.handlers_eq] at hvalue
  · rw [hm.1] at hfault
    cases hfault

theorem installs_returnTop : Installs (returnTop ctx) m := by
  cases hframes : m.process.frames with
  | nil =>
    unfold returnTop Exec.frame Installs
    simp only [ends_bind, ends_get, hframes]
    exact fun _ => .refl _
  | cons top callers =>
    refine (execute_returnTop (fun _ => True) hframes).mono (fun _ m' h value hvalue => .inl ?_) fun _ _ h => h.elim
    rcases h with hcloses | ⟨caller, rest, value', rfl, -, hprocess⟩
    · obtain ⟨outcome, hprocess⟩ := hcloses.finish
      rw [hprocess] at hvalue
      cases hvalue
    · obtain ⟨frame, hframe, hhandler⟩ := Process.mem_handlers.1 hvalue
      rw [hprocess, Process.ownFrames, List.cons_append] at hframe
      refine Process.mem_handlers.2 ?_
      rcases List.mem_cons.1 hframe with rfl | hframe
      · exact ⟨caller, by simp [Process.ownFrames, hframes], hhandler⟩
      · refine ⟨frame, ?_, hhandler⟩
        simpa [Process.ownFrames, hframes] using .inr (.inr (by simpa using hframe))

theorem installs_raise (value : Value) (cause : Option Fault) : Installs (raise ctx value cause) m := by
  unfold raise
  refine .get ?_
  split
  · refine LeavesHandlers.then (governs_note _) fun _ m' => ?_
    exact fun value hvalue => (nomatch hvalue)
  · unfold Installs
    simp only [ends_bind, suspend, ends_modifyGet, ends_onHeap]
    refine ends_iff.2 ⟨fun token heap htoken => ?_, fun fault heap herror hfault => ?_⟩
    · simp only [note, ends_modify]
      refine (@begins_callBlock (fun _ => True) _ _ _ _ _ _).mono (fun _ m' hm value hvalue => .inl ?_)
        fun fault m' hm hfault => ?_
      · obtain ⟨frame, hframe, hprocess⟩ := hm
        rw [hprocess, hframe.handlers_eq] at hvalue
        have hsuspended : value ∈ m.process.suspend.2.handlers := hvalue
        simpa [Process.handlers, Process.ownFrames, Process.suspend, or_comm] using hsuspended
      · rw [hm.1] at hfault
        cases hfault
    · rw [(Heap.allocate_error herror).2] at hfault
      cases hfault

theorem installs_restore (token value : Value) : Installs (restore token value) m := by
  unfold Installs Ends
  by_cases h : ∃ index frames, m.heap.token? token = some (m.process.id, index) ∧
      m.process.parked[index]? = some (some frames)
  · obtain ⟨index, frames, htoken, hparked⟩ := h
    rw [restore_of_token? htoken hparked]
    cases frames with
    | nil => exact fun h => (nomatch h)
    | cons top callers =>
      intro other hother
      obtain ⟨frame, hframe, hhandler⟩ := Process.mem_handlers.1 hother
      have hparks (found : Frame) (hfound : found ∈ top :: callers) : found ∈ m.process.ownFrames :=
        List.mem_append_right _ (List.mem_flatMap.2 ⟨_, List.mem_of_getElem? hparked, hfound⟩)
      refine .inl (Process.mem_handlers.2 ?_)
      rcases List.mem_append.1 hframe with hframe | hframe
      · rcases List.mem_cons.1 hframe with rfl | hframe
        · exact ⟨top, hparks top List.mem_cons_self, hhandler⟩
        · exact ⟨frame, hparks frame (.tail _ hframe), hhandler⟩
      · obtain ⟨stack, hstack, hframe⟩ := List.mem_flatMap.1 hframe
        rcases List.mem_or_eq_of_mem_set hstack with hstack | rfl
        · exact ⟨frame, List.mem_append_right _ (List.mem_flatMap.2 ⟨stack, hstack, hframe⟩), hhandler⟩
        · cases hframe
  · rw [restore_of_ne fun index frames htoken hparked => h ⟨index, frames, htoken, hparked⟩]
    exact fun _ => .refl _

/-! ## Sends -/

/-- A handler that a native asks for is a block. -/
theorem isBlock_of_reply (native : Native) (roots : Roots) (receiver : Value) (args : List Value) :
    Replies (fun reply heap => ∀ value, reply = .handler value → heap.IsBlock value)
      (native.run roots receiver args) := by
  refine replies_run (fun _ _ _ h => by cases h) fun hcontrol => ?_
  cases native with
  | halt => exact .bind fun value => .pure fun _ _ h => by cases h
  | raise => exact .bind fun value => .pure fun _ _ h => by cases h
  | setHandler =>
    refine .bind fun handler heap reply heap' hok value heq => ?_
    rw [get_bind] at hok
    split at hok
    · rename_i hblock
      obtain ⟨rfl, rfl⟩ := pure_ok_iff.1 hok
      cases heq
      exact Heap.isBlock_of_any hblock
    · cases hok
  | restore =>
    simp only [Native.run]
    split
    · exact .pure fun _ _ h => by cases h
    · exact .throw
  | _ => simp [NativeGroup.natives] at hcontrol

theorem installs_follow {reply : Reply} (h : ∀ value, reply = .handler value → m.heap.IsBlock value) :
    Installs (follow ctx reply) m := by
  cases reply with
  | answer value => exact LeavesHandlers.installs (governs_push value)
  | halt value =>
    refine LeavesHandlers.then (governs_note _) fun _ m' => ?_
    exact fun value hvalue => (nomatch hvalue)
  | raise value => exact installs_raise value none
  | handler block =>
    show Installs (updateFrame _) m
    unfold Installs Ends updateFrame
    cases hframes : m.process.frames with
    | nil => exact fun _ => .refl _
    | cons top callers =>
      intro value hvalue
      have hmem : value = block ∨ value ∈ (callers ++ m.process.parked.flatMap (·.getD [])).filterMap (·.handler) :=
        List.mem_cons.1 hvalue
      rcases hmem with rfl | hmem
      · exact .inr (h value rfl)
      · obtain ⟨frame, hframe, hhandler⟩ := List.mem_filterMap.1 hmem
        refine .inl (Process.mem_handlers.2 ⟨frame, ?_, hhandler⟩)
        rw [Process.ownFrames, hframes]
        exact .tail _ hframe
  | restore token value => exact installs_restore token value

theorem installs_callNative (native : Native) (selector : String) (receiver : Value) (args : List Value) :
    Installs (callNative ctx native selector receiver args) m := by
  unfold callNative
  split
  · exact .throw
  · refine .get (.get ?_)
    unfold Installs
    rw [ends_bind, ends_onHeap]
    refine ends_iff.2 ⟨fun reply heap hok => ?_, fun fault heap _ _ => .refl _⟩
    exact installs_follow (isBlock_of_reply _ _ _ _ _ _ _ hok)

theorem installs_apply (holder : ObjectId) (value receiver : Value) (selector : String) (args : List Value) :
    Installs (apply ctx holder value receiver selector args) m := by
  refine .get ?_
  split
  · exact LeavesHandlers.installs (governs_assign (fun _ _ _ => trivial) receiver)
  · exact installs_callNative _ selector receiver args
  · rename_i method object hbehavior
    split
    · exact .get (LeavesHandlers.installs (governs_push _))
    · exact .get (@begins_activate (fun _ => True) _ _ _ _ (method_of_behaviorOf hbehavior) _ _ _ _ _).installs
  · exact .get (LeavesHandlers.installs (governs_push _))

theorem installs_dispatch (receiver : Value) (selector : String) (parent : Option String) (args : List Value) :
    Installs (dispatch ctx receiver selector parent args) m := by
  refine .get ?_
  simp only
  split
  · exact (@begins_callBlock (fun _ => True) _ _ _ _ _ _).installs
  · refine LeavesHandlers.then (governs_resolve receiver selector parent) fun result m' => ?_
    cases result with
    | found holder value => exact installs_apply holder value receiver selector args
    | missing => exact .throw
    | ambiguous first second => exact LeavesHandlers.then (governs_note _) fun _ _ => .throw

theorem installs_execute (i : Instruction) : Installs (execute ctx i) m := by
  cases i with
  | pushSelf => exact LeavesHandlers.installs (governs_updateFrame fun _ _ hframes => Machine.Rule.operands _ hframes _)
  | pushLiteral kind index =>
    exact LeavesHandlers.then (governs_literal lenient_handlers (fun _ => trivial) index) fun _ _ =>
      LeavesHandlers.installs (governs_push _)
  | pop => exact LeavesHandlers.installs (governs_pop.bind fun _ _ _ => .pure PUnit.unit)
  | send kind count =>
    rw [show execute ctx (.send kind count) = _ from send_eq kind count]
    exact LeavesHandlers.then (governs_message kind count) fun _ _ => installs_dispatch _ _ _ _
  | returnTop => exact installs_returnTop
  | addSlot kind => exact LeavesHandlers.installs (governs_addSlot fun _ _ _ _ _ => trivial)

theorem installs_step (ctx : Context) (m : Machine) : Installs (step ctx) m := by
  have hfetch : LeavesHandlers fetch m := fetch_past.mono
    (fun i fetched h => show m.process.SameHandlers fetched.process from h.2.2 ▸ m.process.sameHandlers_past i)
    fun fault k h => ⟨trivial, h.1 ▸ Process.SameHandlers.refl m.process⟩
  exact hfetch.then fun i _ => installs_execute i

end Exec

/-! ## Instructions and turns -/

namespace Machine

variable {m : Machine} {ctx : Context} {value : Value}

theorem mem_handlers_fail {fault : Fault} (h : value ∈ (m.fail ctx fault).process.handlers) :
    fault.isRecoverable = true ∧ (value ∈ m.process.handlers ∨ (m.fail ctx fault).heap.IsBlock value) := by
  have hreport : Exec.Installs (report ctx fault) m :=
    Exec.LeavesHandlers.then (Rule.governs_onHeap (Heap.Rule.governs_newString _)) fun message _ =>
      Exec.installs_raise message (some fault)
  have hended (fault : Fault) (k : Machine) : value ∉ (k.terminate ctx fault).process.handlers := by
    obtain ⟨outcome, hprocess⟩ := (@closes_terminate (fun _ => True) ctx fault k).finish
    rw [hprocess]
    exact List.not_mem_nil
  rw [fail_eq] at h ⊢
  split at h
  · rename_i hfault
    rw [if_pos hfault]
    refine ⟨hfault, ?_⟩
    split at h
    · exact hreport.of_ok ‹_› value h
    · exact absurd h (hended _ _)
  · exact absurd h (hended _ _)

theorem mem_handlers_advance (h : value ∈ (m.advance ctx).process.handlers) :
    value ∈ m.process.handlers ∨ (m.advance ctx).heap.IsBlock value := by
  have hstep := Exec.installs_step ctx m
  unfold advance at h ⊢
  split at h
  · exact hstep.of_ok ‹_› value h
  · obtain ⟨hfault, hmem⟩ := mem_handlers_fail h
    rwa [(hstep.of_error ‹_› hfault).handlers_eq] at hmem

theorem mem_handlers_run (budget : Nat) (tidy : m.heap.Tidy) (h : value ∈ (m.run ctx budget).process.handlers) :
    value ∈ m.process.handlers ∨ (m.run ctx budget).heap.IsBlock value := by
  induction budget generalizing m with
  | zero => exact .inl h
  | succ budget ih =>
    unfold run at h ⊢
    split at h
    · exact .inl h
    · rename_i hgoing
      rw [if_neg hgoing]
      have hadvance : Heap.Touches ⟨[], fun _ => True, fun _ => True⟩ m.heap (m.advance ctx).heap :=
        touches_advance (fun _ _ => trivial) fun _ _ => trivial
      have htidy := hadvance.tidy tidy
      rcases ih htidy h with hmem | hblock
      · exact (mem_handlers_advance hmem).imp_right ((Store.leads_run ctx [] budget _).isBlock htidy)
      · exact .inr hblock

end Machine

/-! ## Sessions -/

namespace Session

variable {plain : Prop} {w w' : Session} {process : Process} {value : Value}

/-- Whatever is installed as a handler is a block or was made from one. -/
theorem Reachable.isBlock_of_mem_handlers (hw : w.Reachable plain) (hprocess : process ∈ w.scheduler.pool)
    (h : value ∈ process.handlers) : w.heap.IsBlock value := by
  induction hw generalizing process with
  | @start config maxObjects s hcreate =>
    unfold Scheduler.create at hcreate
    split at hcreate
    · cases hcreate
      cases hprocess
    · cases hcreate
  | @step w w' hw hstep ih =>
    have htidy := hw.sound.heap.coherent.tidy
    have hold {process : Process} (hprocess : process ∈ w.scheduler.pool) (h : value ∈ process.handlers) :
        w'.scheduler.heap.IsBlock value := hstep.leads.isBlock htidy (ih hprocess h)
    rcases hstep.acts_or_turns with ⟨-, hpool⟩ | hturns
    · rcases hpool process hprocess with hsame | ⟨body, -, rfl⟩
      · exact hold hsame h
      · cases h
    · show w'.scheduler.heap.IsBlock value
      generalize w'.scheduler = s at hturns hprocess hold
      cases hturns with
      | idle hpool journal => exact hold (hpool.subset hprocess) h
      | @turn runner rest pool budget journal hpool hgoing hpool' =>
        rcases List.mem_cons.1 (hpool'.mem_iff.1 hprocess) with rfl | hrest
        · rcases Machine.mem_handlers_run budget htidy h with hmem | hblock
          · exact hold (hpool.mem_iff.2 List.mem_cons_self) hmem
          · exact hblock
        · exact hold (hpool.mem_iff.2 (.tail _ hrest)) h

end Session

end ProtoVm
