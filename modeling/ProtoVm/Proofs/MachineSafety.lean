import ProtoVm.Proofs.CachedSearch
import ProtoVm.Proofs.NativeSafety

/-!
# The machine keeps the heap sound

One lemma for each operation of the machine, and from them: an instruction, with whatever follows from
its failure, leaves a sound heap behind, for the frames of its own process and of all the others.
-/

namespace ProtoVm

/-- The frames of all stacks of a process, running or parked. -/
def Process.ownFrames (process : Process) : List Frame :=
  process.frames ++ process.parked.flatMap (·.getD [])

theorem Process.allFrames_perm (process : Process) : process.allFrames.Perm process.ownFrames := by
  unfold Process.allFrames Process.ownFrames
  refine (List.reverse_perm _).append (List.Perm.flatMap_left _ fun stack _ => ?_)
  exact List.reverse_perm _

namespace Machine

/-- All frames there are, those of other processes included. -/
abbrev framesWith (m : Machine) (others : List Frame) : List Frame := m.process.ownFrames ++ others

/-- The values of `m` that may be stored. -/
abbrev Accepts (policy : Policy) (others : List Frame) (m : Machine) (value : Value) : Prop :=
  m.heap.Accepts policy (m.framesWith others) value

abbrev Sound (policy : Policy) (roots : Roots) (others : List Frame) (m : Machine) : Prop :=
  m.heap.Sound policy roots (m.framesWith others)

/-- Every stack that was ever parked has its token in the heap. -/
def Tokened (m : Machine) : Prop :=
  ∀ index < m.process.parked.length, ∃ id object, m.heap.get? id = some object ∧
    object.payload = .token m.process.id index

/-- The object in which the running call's implicit sends begin. -/
def top? (m : Machine) : Option Value := m.process.frames.head?.map (·.activation)

/-- The value can be an operand of the running call. -/
def Usable (policy : Policy) (others : List Frame) (m : Machine) (value : Value) : Prop :=
  m.Accepts policy others value ∨ m.top? = some value

/-- `m'` is sound, and what could be stored in `m` can be stored in it. Under `q` no token is missing. -/
structure Follows (policy : Policy) (roots : Roots) (others : List Frame) (q : Prop) (m m' : Machine) : Prop where
  heap : Heap.Follows policy roots m.heap (m.framesWith others) m'.heap (m'.framesWith others)
  id_eq : m'.process.id = m.process.id
  outcome : ∀ outcome, m'.process.outcome = some outcome →
    m.process.outcome = some outcome ∨ m'.Accepts policy others outcome.result
  tokened : q → m.Tokened → m'.Tokened

variable {policy : Policy} {roots : Roots} {others : List Frame} {q : Prop} {m m' m'' : Machine}

theorem Follows.sound (h : m.Follows policy roots others q m') : m'.Sound policy roots others := h.heap.sound

theorem Follows.accepts (h : m.Follows policy roots others q m') {value : Value}
    (hv : m.Accepts policy others value) : m'.Accepts policy others value := h.heap.accepts value hv

theorem Follows.trans (h : m.Follows policy roots others True m')
    (h' : m'.Follows policy roots others q m'') : m.Follows policy roots others q m'' := by
  refine ⟨h.heap.trans h'.heap, h'.id_eq.trans h.id_eq, fun outcome ho => ?_,
    fun hq ht => h'.tokened hq (h.tokened trivial ht)⟩
  rcases h'.outcome outcome ho with ho | ho
  · exact (h.outcome outcome ho).imp_right h'.accepts
  · exact .inr ho

theorem Tokened.evolves (ht : m.Tokened) (hc : m.heap.Coherent policy.copies)
    (he : Heap.Evolves roots policy.copies m.heap m'.heap) (hid : m'.process.id = m.process.id)
    (hlength : m'.process.parked.length ≤ m.process.parked.length) : m'.Tokened := by
  intro index hindex
  obtain ⟨id, object, hget, hpayload⟩ := ht index (Nat.lt_of_lt_of_le hindex hlength)
  obtain ⟨object', hget', hpayload'⟩ := he.token hc hget (by rw [hpayload]; rfl)
  exact ⟨id, object', hget', by rw [hpayload', hpayload, hid]⟩

/-- The process parks nothing and does not end. -/
theorem Sound.follows (hs : m.Sound policy roots others)
    (hheap :
      Heap.Follows policy roots m.heap (m.framesWith others) m'.heap (m'.framesWith others))
    (hid : m'.process.id = m.process.id) (houtcome : m'.process.outcome = m.process.outcome)
    (hlength : m'.process.parked.length ≤ m.process.parked.length) :
    m.Follows policy roots others q m' :=
  ⟨hheap, hid, fun _ ho => .inl (houtcome ▸ ho), fun _ ht => ht.evolves hs.coherent hheap.evolves hid hlength⟩

theorem Sound.follows_self (hs : m.Sound policy roots others) : m.Follows policy roots others q m :=
  hs.follows (Heap.Sound.follows_self hs) rfl rfl (Nat.le_refl _)

theorem Usable.follows {value : Value} (hv : m.Usable policy others value)
    (h : m.Follows policy roots others q m') (htop : m'.top? = m.top?) :
    m'.Usable policy others value :=
  hv.imp h.accepts (htop ▸ ·)

theorem Sound.frame (hs : m.Sound policy roots others) {frame : Frame} {rest : List Frame}
    (h : m.process.frames = frame :: rest) : frame.Sound policy m.heap (m.framesWith others) :=
  hs.activations frame (by simp [Process.ownFrames, h])

theorem Usable.effective {value : Value} (hs : m.Sound policy roots others)
    (hv : m.Usable policy others value) : m.Accepts policy others (m.heap.effective value) := by
  rcases hv with hv | hv
  · exact Heap.Sound.effective_accepts hs hv.lasts
  · obtain ⟨frame, hframe, rfl⟩ := Option.map_eq_some_iff.1 hv
    obtain ⟨rest, hframes⟩ := List.head?_eq_some_iff.1 hframe
    exact (Sound.frame hs hframes).effective

theorem Usable.isLive {id : ObjectId} (hs : m.Sound policy roots others)
    (hv : m.Usable policy others (.ref id)) : m.heap.isLive id = true := by
  rcases hv with hv | hv
  · exact hv.isLive
  · obtain ⟨frame, hframe, heq⟩ := Option.map_eq_some_iff.1 hv
    obtain ⟨rest, hframes⟩ := List.head?_eq_some_iff.1 hframe
    exact ((Sound.frame hs hframes).activation id heq).1

/-- What is no activation may be stored. -/
theorem Usable.accepts {id : ObjectId} (hs : m.Sound policy roots others)
    (hv : m.Usable policy others (.ref id)) (hplain : (m.heap.object id).isActivation = false) :
    m.Accepts policy others (.ref id) := by
  have heffective := hv.effective hs
  rw [Heap.effective_ref] at heffective
  cases hpayload : (m.heap.object id).payload with
  | activation receiver => simp [Object.isActivation, hpayload] at hplain
  | _ => simpa [hpayload, Payload.receiver?] using heffective

end Machine

namespace Exec

open Machine

/-- The operation keeps the machine sound and a result of it has `P`. A fault that a handler can answer
leaves no token missing. -/
def Keeps {α : Type} (policy : Policy) (roots : Roots) (others : List Frame) (x : Exec α) (m : Machine)
    (P : α → Machine → Prop) : Prop :=
  Ends x m (fun a m' => m.Follows policy roots others True m' ∧ P a m')
    fun fault m' => m.Follows policy roots others (fault.isRecoverable = true) m'

variable {policy : Policy} {ctx : Context} {roots : Roots} {others : List Frame} {m : Machine}

section

variable {α β : Type} {x : Exec α} {P Q : α → Machine → Prop}

theorem Keeps.mono (h : Keeps policy roots others x m P)
    (himp : ∀ a m', m.Follows policy roots others True m' → P a m' → Q a m') :
    Keeps policy roots others x m Q :=
  Ends.mono h (fun a m' h => ⟨h.1, himp a m' h.1 h.2⟩) fun _ _ h => h

theorem Keeps.pure {a : α} (hs : m.Sound policy roots others) (h : P a m) :
    Keeps policy roots others (pure a) m P := ⟨Sound.follows_self hs, h⟩

theorem Keeps.throw {fault : Fault} (hs : m.Sound policy roots others) :
    Keeps policy roots others (throw fault) m P := Sound.follows_self hs

theorem Keeps.bind {f : α → Exec β} {Q : β → Machine → Prop} (h : Keeps policy roots others x m P)
    (hf : ∀ a m', m.Follows policy roots others True m' → P a m' →
      Keeps policy roots others (f a) m' Q) : Keeps policy roots others (x >>= f) m Q := by
  unfold Keeps
  rw [ends_bind]
  refine Ends.mono h (fun a m' ha => ?_) fun _ _ h => h
  exact Ends.mono (hf a m' ha.1 ha.2) (fun b m'' hb => ⟨ha.1.trans hb.1, hb.2⟩)
    fun _ _ hb => ha.1.trans hb

theorem Keeps.get {f : Machine → Exec α} (h : Keeps policy roots others (f m) m P) :
    Keeps policy roots others (MonadState.get >>= f) m P := h

theorem Keeps.modify {edit : Machine → Machine} {P : PUnit → Machine → Prop}
    (h : m.Follows policy roots others True (edit m)) (hp : P ⟨⟩ (edit m)) :
    Keeps policy roots others (modify edit) m P := ⟨h, hp⟩

/-- A computation without effect. -/
theorem Keeps.lift {y : Except Fault α} {f : α → Exec β} {Q : β → Machine → Prop}
    (hs : m.Sound policy roots others) (h : ∀ a, y = .ok a → Keeps policy roots others (f a) m Q) :
    Keeps policy roots others (liftExcept y >>= f) m Q := by
  unfold Keeps
  rw [ends_bind]
  exact ends_liftExcept.2 ⟨h, fun _ _ => Sound.follows_self hs⟩

theorem Keeps.onHeap {y : HeapM α} {R : α → Heap → Prop} (hs : m.Sound policy roots others)
    (h : Heap.Keeps policy roots (m.framesWith others) y m.heap R) :
    Keeps policy roots others (onHeap y) m fun a m' => m'.process = m.process ∧ R a m'.heap := by
  unfold Keeps Ends Exec.onHeap
  unfold Heap.Keeps Ends at h
  simp only
  cases hy : y m.heap with
  | ok a heap =>
    rw [hy] at h
    exact ⟨Sound.follows hs h.1 rfl rfl (Nat.le_refl _), rfl, h.2⟩
  | error fault heap =>
    rw [hy] at h
    exact Sound.follows hs h rfl rfl (Nat.le_refl _)

end

theorem keeps_note (hs : m.Sound policy roots others) (event : ProcessId → Event) :
    Keeps policy roots others (note event) m fun _ m' => m'.heap = m.heap ∧ m'.process = m.process :=
  .modify (Sound.follows hs (Heap.Sound.follows_self hs) rfl rfl (Nat.le_refl _)) ⟨rfl, rfl⟩

/-- Reading the running frame. -/
theorem Keeps.frame {α : Type} {f : Frame → Exec α} {P : α → Machine → Prop}
    (hs : m.Sound policy roots others)
    (h : ∀ frame rest, m.process.frames = frame :: rest → Keeps policy roots others (f frame) m P) :
    Keeps policy roots others (Exec.frame >>= f) m P := by
  unfold Exec.frame Keeps
  simp only [ends_bind, ends_get]
  split
  · exact h _ _ ‹_›
  · exact Sound.follows_self hs

theorem keeps_updateFrame (hs : m.Sound policy roots others) {edit : Frame → Frame}
    (h : ∀ frame rest, m.process.frames = frame :: rest →
      frame.Adjusted policy m.heap (m.framesWith others) (edit frame)) :
    Keeps policy roots others (updateFrame edit) m fun _ m' => ∃ frame rest, m.process.frames = frame :: rest ∧
      m' = { m with process := { m.process with frames := edit frame :: rest } } := by
  unfold Keeps Ends updateFrame
  cases hframes : m.process.frames with
  | nil => exact Sound.follows_self hs
  | cons frame rest =>
    refine ⟨Sound.follows hs ?_ rfl rfl (Nat.le_refl _), frame, rest, rfl, rfl⟩
    have hadjusted := h frame rest hframes
    have hsound : m.heap.Sound policy roots (m.framesWith others) := hs
    simp only [framesWith, Process.ownFrames, hframes, List.cons_append] at hadjusted hsound ⊢
    exact hsound.replace hadjusted

/-- Only operands, the place in the code and the handler of a frame are replaced. -/
theorem adjusted {frame frame' : Frame} {rest : List Frame} (hs : m.Sound policy roots others)
    (hframes : m.process.frames = frame :: rest) (hrecords : frame'.records = frame.records)
    (hcaptured : frame'.captured = frame.captured)
    (hactivation : frame'.activation = frame.activation) (hbody : frame'.body = frame.body)
    (hstack : ∀ value ∈ frame'.stack, value ∈ frame.stack ∨ m.Usable policy others value)
    (hheld : ∀ value ∈ frame'.held, value ∈ frame.held ∨ m.Accepts policy others value) :
    frame.Adjusted policy m.heap (m.framesWith others) frame' := by
  have hframe := Sound.frame hs hframes
  refine ⟨hrecords, .inl ?_, hactivation, hbody, fun value hvalue => ?_, fun value hvalue => ?_⟩
  · unfold Frame.releasable
    rw [hrecords, hcaptured]
  · rcases hstack value hvalue with hvalue | hvalue | hvalue
    · exact hframe.stack value hvalue
    · exact .inr hvalue
    · simp only [top?, hframes, List.head?_cons, Option.map_some, Option.some.injEq] at hvalue
      exact .inl hvalue.symm
  · rcases hheld value hvalue with hvalue | hvalue
    · exact hframe.held value hvalue
    · exact hvalue

theorem keeps_push (hs : m.Sound policy roots others) {value : Value}
    (hv : m.Usable policy others value) :
    Keeps policy roots others (push value) m fun _ _ => True := by
  refine (keeps_updateFrame hs fun frame rest hframes => ?_).mono fun _ _ _ _ => trivial
  refine adjusted hs hframes rfl rfl rfl rfl (fun other hother => ?_)
    fun other hother => .inl hother
  rcases List.mem_cons.1 hother with rfl | hother
  · exact .inr hv
  · exact .inl hother

theorem usable_of_mem_stack (hs : m.Sound policy roots others) {frame : Frame} {rest : List Frame}
    (hframes : m.process.frames = frame :: rest) {value : Value} (h : value ∈ frame.stack) :
    m.Usable policy others value := by
  rcases (Sound.frame hs hframes).stack value h with rfl | hv
  · exact .inr (by simp [top?, hframes])
  · exact .inl hv

/-- Taking operands off the stack of the running call. -/
theorem keeps_shrink (hs : m.Sound policy roots others) {frame : Frame} {rest : List Frame}
    (hframes : m.process.frames = frame :: rest) {stack : List Value}
    (hstack : ∀ value ∈ stack, value ∈ frame.stack) :
    Keeps policy roots others (updateFrame ({ · with stack })) m fun _ m' => m'.top? = m.top? := by
  refine (keeps_updateFrame hs fun other rest' hother => ?_).mono ?_
  · rw [hframes] at hother
    cases hother
    exact adjusted hs hframes rfl rfl rfl rfl (fun value hvalue => .inl (hstack value hvalue))
      fun _ h => .inl h
  · rintro _ _ - ⟨other, rest', hother, rfl⟩
    simp [top?, hother]

theorem keeps_pop (hs : m.Sound policy roots others) :
    Keeps policy roots others pop m fun value m' => m'.top? = m.top? ∧ m'.Usable policy others value := by
  refine .frame hs fun frame rest hframes => ?_
  split
  · rename_i value stack hstack
    refine (keeps_shrink hs hframes fun other hother => ?_).bind fun _ m' h htop => .pure h.sound
      ⟨htop, ?_⟩
    · rw [hstack]
      exact .tail _ hother
    · exact (usable_of_mem_stack hs hframes (hstack ▸ List.mem_cons_self)).follows h htop
  · exact .throw hs

theorem keeps_popOperands (hs : m.Sound policy roots others) (argc : Nat) :
    Keeps policy roots others (popOperands argc) m fun operands m' =>
      m'.top? = m.top? ∧ m'.Usable policy others operands.1 ∧
        ∀ value ∈ operands.2, m'.Usable policy others value := by
  refine .frame hs fun frame rest hframes => ?_
  split
  · rename_i receiver stack hdrop
    have hmem {value : Value} (h : value ∈ receiver :: stack) : value ∈ frame.stack :=
      List.mem_of_mem_drop (hdrop ▸ h)
    refine (keeps_shrink hs hframes fun other hother => hmem (.tail _ hother)).bind
      fun _ m' h htop => .pure h.sound ⟨htop, ?_, fun value hvalue => ?_⟩
    · exact (usable_of_mem_stack hs hframes (hmem List.mem_cons_self)).follows h htop
    · exact (usable_of_mem_stack hs hframes (List.mem_of_mem_take (List.mem_reverse.1 hvalue))).follows h htop
  · exact .throw hs

theorem ends_onHeap {α : Type} {x : HeapM α} {Q : α → Machine → Prop} {E : Fault → Machine → Prop} :
    Ends (onHeap x) m Q E ↔
      Ends x m.heap (fun a heap => Q a { m with heap }) fun fault heap => E fault { m with heap } := by
  unfold Ends onHeap
  simp only
  cases x m.heap <;> rfl

/-- What an operation keeps from a later machine on it keeps from an earlier one. -/
theorem Keeps.after {α : Type} {x : Exec α} {m' : Machine} {P : α → Machine → Prop}
    (h : Keeps policy roots others x m' P) (hm : m.Follows policy roots others True m') :
    Ends x m' (fun a m'' => m.Follows policy roots others True m'' ∧ P a m'')
      fun fault m'' => m.Follows policy roots others (fault.isRecoverable = true) m'' :=
  Ends.mono h (fun _ _ ha => ⟨hm.trans ha.1, ha.2⟩) fun _ _ ha => hm.trans ha

/-! ## Calls -/

theorem keeps_activate (hs : m.Sound policy ctx.roots others) {object : ObjectId}
    {method : Method} (hmethod : (m.heap.object object).shape.method? = some method)
    (selector : String) {receiver lexical : Value} (hreceiver : m.Accepts policy others receiver)
    (hlexical : m.heap.Lasts (m.framesWith others) lexical) {args : List Value}
    (hargs : ∀ value ∈ args, m.Usable policy others value) {kind : FrameKind}
    (hkind : ∀ error, kind.error? = some error → m.Accepts policy others error) :
    Keeps policy ctx.roots others (activate ctx object method selector receiver lexical args kind) m
      fun _ _ => True := by
  unfold activate
  split
  · exact .throw hs
  · refine .get ?_
    split
    · exact .throw hs
    · have hargs' : ∀ value ∈ args.map m.heap.effective, m.Accepts policy others value := by
        intro value hvalue
        obtain ⟨arg, harg, rfl⟩ := List.mem_map.1 hvalue
        exact (hargs arg harg).effective hs
      have hnil : m.Accepts policy others (.ref ctx.roots.nil) :=
        hs.anchor_accepts (by simp [Roots.ids])
      unfold Keeps
      rw [ends_bind, ends_onHeap]
      refine Ends.mono (Heap.newRecords_opens hs hmethod hargs' hnil hlexical hreceiver)
        (fun records heap' hopen => ?_) fun fault heap' h => Sound.follows hs h rfl rfl (Nat.le_refl _)
      simp only [ends_bind, note, ends_modify]
      refine ⟨Sound.follows hs (hopen _ ⟨rfl, rfl, rfl, rfl, ?_, Heap.Sound.code_of_method hs hmethod⟩) rfl rfl
        (Nat.le_refl _), trivial⟩
      intro value hvalue
      simp only [Frame.held, Option.toList_none, List.nil_append, List.mem_cons,
        Option.mem_toList] at hvalue
      rcases hvalue with rfl | hvalue
      · exact hreceiver
      · exact hkind value hvalue

theorem keeps_callBlock (hs : m.Sound policy ctx.roots others) {block : ObjectId}
    (hblock : m.Accepts policy others (.ref block)) (selector : String) {args : List Value}
    (hargs : ∀ value ∈ args, m.Usable policy others value) {kind : FrameKind}
    (hkind : ∀ error, kind.error? = some error → m.Accepts policy others error) :
    Keeps policy ctx.roots others (callBlock ctx block selector args kind) m fun _ _ => True := by
  refine .get ?_
  simp only
  split
  · exact .throw hs
  · rename_i method hmethod
    have hlexical : m.heap.Lasts (m.framesWith others) ((m.heap.object block).scope.getD (.ref ctx.roots.nil)) := by
      cases hscope : (m.heap.object block).scope with
      | none => exact (hs.anchor_accepts (by simp [Roots.ids])).lasts
      | some scope => exact hs.scope_lasts hblock.lasts hscope
    exact keeps_activate hs hmethod selector
      (Heap.Sound.effective_accepts hs hlexical) hlexical hargs hkind

theorem keeps_leave (hs : m.Sound policy roots others) :
    Keeps policy roots others leave m fun _ _ => True := by
  unfold leave
  refine .modify ?_ trivial
  split
  · exact Sound.follows_self hs
  · rename_i frame callers hframes
    refine Sound.follows hs ?_ rfl rfl (Nat.le_refl _)
    have hperm : (m.framesWith others).Perm
        ([frame] ++ (callers ++ m.process.parked.flatMap (·.getD []) ++ others)) := by
      simp [framesWith, Process.ownFrames, hframes]
    exact Heap.Sound.drop hs hperm

theorem follows_unwind (hs : m.Sound policy roots others) :
    m.Follows policy roots others True m.unwind := by
  refine Sound.follows hs ?_ rfl rfl (Nat.zero_le _)
  have hperm : (m.framesWith others).Perm (m.process.allFrames ++ others) :=
    m.process.allFrames_perm.symm.append_right others
  exact Heap.Sound.drop hs hperm

theorem follows_conclude (hs : m.Sound policy ctx.roots others) {value : Value}
    (hv : m.Accepts policy others value) {outcome : String → Outcome}
    (hresult : ∀ display, (outcome display).result = value) :
    m.Follows policy ctx.roots others q (m.conclude ctx value outcome) := by
  have hunwind := follows_unwind hs
  refine ⟨hunwind.heap, rfl, fun result hr => .inr ?_,
    fun _ _ index hindex => absurd hindex (Nat.not_lt_zero _)⟩
  cases hr
  rw [hresult]
  exact hunwind.accepts hv

theorem keeps_returnTop (hs : m.Sound policy ctx.roots others) :
    Keeps policy ctx.roots others (returnTop ctx) m fun _ _ => True := by
  refine .frame hs fun frame rest hframes => ?_
  have hframe := Sound.frame hs hframes
  split
  · rename_i error hkind
    have herror := hframe.held error (by simp [Frame.held, hkind, FrameKind.error?])
    refine (keeps_leave hs).bind fun _ m' h _ => (keeps_note h.sound _).bind fun _ m'' h' _ => ?_
    exact .modify (follows_conclude h'.sound (h'.accepts (h.accepts herror)) fun _ => rfl) trivial
  · refine .get ?_
    have hvalue : m.Accepts policy others (m.heap.effective (frame.stack.head?.getD (.ref ctx.roots.nil))) := by
      cases hstack : frame.stack with
      | nil => exact Heap.Sound.effective_accepts hs (hs.anchor_accepts (by simp [Roots.ids])).lasts
      | cons value stack =>
        have hmem : value ∈ frame.stack := by simp [hstack]
        exact (usable_of_mem_stack hs hframes hmem).effective hs
    refine (keeps_leave hs).bind fun _ m' h _ => .get ?_
    split
    · exact .modify (follows_conclude h.sound (h.accepts hvalue) fun _ => rfl) trivial
    · exact keeps_push h.sound (.inl (h.accepts hvalue))

/-! ## Errors -/

theorem suspend_perm (process : Process) : process.suspend.2.ownFrames.Perm process.ownFrames := by
  simp only [Process.suspend, Process.ownFrames, List.flatMap_append, List.flatMap_singleton, Option.getD_some,
    List.nil_append]
  exact List.perm_append_comm

theorem follows_suspend (hs : m.Sound policy roots others) :
    Heap.Follows policy roots m.heap (m.framesWith others) m.heap
      (framesWith { m with process := m.process.suspend.2 } others) :=
  Heap.Sound.forget hs ((suspend_perm m.process).append_right others).subperm

theorem accepts_of_handler? (hs : m.Sound policy roots others) {handler : Value}
    (h : m.process.handler? = some handler) : m.Accepts policy others handler := by
  obtain ⟨frame, hframe, hhandler⟩ := List.exists_of_findSome?_eq_some h
  refine (hs.activations frame ?_).held handler (by simp [Frame.held, hhandler])
  simp [framesWith, Process.ownFrames, hframe]

theorem eq_ref_of_block? {heap : Heap} {value : Value} {block : ObjectId}
    (h : heap.block? value = some block) :
    value = .ref block ∧ (heap.object block).isActivation = false := by
  cases value with
  | fixnum n => cases h
  | ref id =>
    simp only [Heap.block?, Value.toId?, Option.bind_eq_bind, Option.bind_some] at h
    split at h
    · cases h
      simp_all
    · cases h

/-- Parking a stack and making its token. -/
theorem follows_park (hs : m.Sound policy roots others) {token : ObjectId} {heap : Heap}
    (h : Heap.newWithPayload (.token m.process.id m.process.suspend.1) m.heap = .ok token heap) :
    m.Follows policy roots others True { m with heap, process := m.process.suspend.2 } ∧
      Accepts policy others { m with heap, process := m.process.suspend.2 } (.ref token) := by
  have hpark := follows_suspend hs
  have htoken : (Payload.token m.process.id m.process.suspend.1).receiver? = none := rfl
  obtain ⟨hfollows, haccepts, object, hget, hpayload⟩ := Ends.of_ok (Heap.keeps_newWithPayload hpark.sound htoken) h
  refine ⟨⟨hpark.trans hfollows, rfl, fun outcome ho => .inl ho, fun _ ht index hindex => ?_⟩,
    haccepts⟩
  simp only [Process.suspend, List.length_append, List.length_singleton] at hindex
  rcases Nat.lt_succ_iff_lt_or_eq.1 hindex with hold | rfl
  · obtain ⟨id, found, hfound, htoken⟩ := ht index hold
    obtain ⟨found', hfound', htoken'⟩ := hfollows.evolves.token hs.coherent hfound (by rw [htoken]; rfl)
    exact ⟨id, found', hfound', htoken'.trans htoken⟩
  · exact ⟨token, object, hget, hpayload⟩

theorem keeps_raise (hs : m.Sound policy ctx.roots others) {value : Value}
    (hv : m.Accepts policy others value) (cause : Option Fault) :
    Keeps policy ctx.roots others (raise ctx value cause) m fun _ _ => True := by
  refine .get ?_
  split
  · refine (keeps_note hs _).bind fun _ m' h _ => ?_
    exact .modify (follows_conclude h.sound (h.accepts hv) fun _ => rfl) trivial
  · rename_i block hblock
    obtain ⟨handler, hhandler, hblock⟩ := Option.bind_eq_some_iff.1 hblock
    obtain ⟨rfl, -⟩ := eq_ref_of_block? hblock
    have haccepts := accepts_of_handler? hs hhandler
    unfold Keeps suspend
    rw [ends_bind, ends_modifyGet, ends_bind, ends_onHeap]
    refine ends_iff.2 ⟨fun token heap h => ?_, fun fault heap h => ?_⟩
    · obtain ⟨hpark, htoken⟩ := follows_park hs h
      refine Keeps.after ((keeps_note hpark.sound _).bind fun _ m' h' _ => ?_) hpark
      refine keeps_callBlock h'.sound (h'.accepts (hpark.accepts haccepts)) _
        (fun arg harg => .inl ?_) ?_
      · have harg := List.mem_of_mem_take harg
        simp only [List.mem_cons, List.not_mem_nil, or_false] at harg
        rcases harg with rfl | rfl
        · exact h'.accepts (hpark.accepts hv)
        · exact h'.accepts htoken
      · rintro error ⟨⟩
        exact h'.accepts (hpark.accepts hv)
    · obtain ⟨rfl, rfl⟩ := Heap.allocate_error h
      exact ⟨follows_suspend hs, rfl, fun outcome ho => .inl ho, fun h => (nomatch h)⟩

/-- Taking a parked stack out of its place. -/
theorem flatMap_set_none_perm {parked : List (Option (List Frame))} {index : Nat}
    {frames : List Frame} (h : parked[index]? = some (some frames)) :
    (parked.flatMap (·.getD [])).Perm (frames ++ (parked.set index none).flatMap (·.getD [])) := by
  induction parked generalizing index with
  | nil => cases h
  | cons stack parked ih =>
    cases index with
    | zero =>
      rw [List.getElem?_cons_zero] at h
      cases h
      simp
    | succ index =>
      rw [List.getElem?_cons_succ] at h
      have hrest := (ih h).append_left (stack.getD [])
      simp only [List.set_cons_succ, List.flatMap_cons]
      exact hrest.trans
        (by simp only [← List.append_assoc]; exact List.perm_append_comm.append_right _)

theorem takeParked_eq_some {process process' : Process} {index : Nat} {frames : List Frame}
    (h : process.takeParked index = some (frames, process')) :
    process.parked[index]? = some (some frames) ∧
      process' = { process with parked := process.parked.set index none } := by
  unfold Process.takeParked at h
  split at h
  · cases h
    exact ⟨‹_›, rfl⟩
  · cases h

/-- A parked stack takes the place of the running one, whose records are given back. -/
theorem follows_switch (hs : m.Sound policy roots others) {index : Nat} {frames : List Frame}
    (h : m.process.parked[index]? = some (some frames)) :
    m.Follows policy roots others True
      { m.release m.process.frames.reverse with
        process := { m.process with parked := m.process.parked.set index none, frames } } := by
  have hperm : (m.framesWith others).Perm (m.process.frames.reverse ++
      (frames ++ (m.process.parked.set index none).flatMap (·.getD []) ++ others)) := by
    simp only [framesWith, Process.ownFrames, List.append_assoc]
    refine (List.reverse_perm _).symm.append ?_
    rw [← List.append_assoc]
    exact (flatMap_set_none_perm h).append_right others
  exact Sound.follows hs (Heap.Sound.drop hs hperm) rfl rfl (by simp)

theorem keeps_restore (hs : m.Sound policy roots others) (token : Value) {value : Value}
    (hv : m.Accepts policy others value) :
    Keeps policy roots others (restore token value) m fun _ _ => True := by
  refine .get ?_
  split
  · rename_i owner index _
    simp only
    split
    · exact .throw hs
    · split
      · exact .throw hs
      · rename_i frames process htake
        obtain ⟨hparked, rfl⟩ := takeParked_eq_some htake
        refine (keeps_note hs _).bind fun _ m' h heq => ?_
        rw [← heq.2] at hparked ⊢
        refine Keeps.bind (P := fun _ _ => True) (.modify (follows_switch h.sound hparked) trivial)
          fun _ m'' h' _ => ?_
        exact keeps_push h'.sound (.inl (h'.accepts (h.accepts hv)))
  · exact .throw hs

/-! ## Sends -/

theorem mem_slotValues_of_slot? {object : Object} {name : String} {value : Value}
    (h : object.slot? name = some value) : value ∈ object.slotValues := by
  obtain ⟨index, -, hindex⟩ := Option.bind_eq_some_iff.1 h
  exact List.mem_of_getElem? hindex

theorem mem_parentValues_of_parent? {object : Object} {name : String} {value : Value}
    (h : object.parent? name = some value) : value ∈ object.parentValues := by
  obtain ⟨index, -, hindex⟩ := Option.bind_eq_some_iff.1 h
  exact List.mem_of_getElem? hindex

theorem startOf_isLive (hs : m.Sound policy roots others) {value : Value}
    (hv : m.Usable policy others value) : m.heap.isLive (roots.startOf value) = true := by
  cases value with
  | fixnum n =>
    have htraits : m.Accepts policy others (.ref roots.fixnumTraits) :=
      hs.anchor_accepts (by simp [Roots.ids])
    exact htraits.isLive
  | ref id => exact hv.isLive hs

theorem keeps_lookup (hs : m.Sound policy ctx.roots others) {value : Value}
    (hv : m.Usable policy others value) (name : String) :
    Keeps policy ctx.roots others (lookup ctx value name) m fun result m' =>
      m'.process = m.process ∧ ∀ holder found, result = .found holder found → m'.Accepts policy others found := by
  have hfollows : Heap.Follows policy ctx.roots m.heap (m.framesWith others)
      (m.heap.slotLookup ctx.roots (ctx.roots.startOf value) name).heap (m.framesWith others) := by
    unfold Heap.slotLookup
    split
    · exact Heap.Sound.follows_self hs
    · exact Heap.Sound.consult hs (startOf_isLive hs hv) name
  refine ⟨Sound.follows hs hfollows rfl rfl (Nat.le_refl _), rfl, fun holder found h => ?_⟩
  have hslot := Heap.slot?_of_slotLookup h
  refine hfollows.accepts found (Heap.Sound.held_accepts hs holder ?_)
  simp [Object.held, mem_slotValues_of_slot? hslot]

theorem keeps_resolve (hs : m.Sound policy ctx.roots others) {receiver : Value}
    (hreceiver : m.Usable policy others receiver) (selector : String) (parent : Option String) :
    Keeps policy ctx.roots others (resolve ctx receiver selector parent) m fun result m' =>
      m'.process = m.process ∧ ∀ holder found, result = .found holder found → m'.Accepts policy others found := by
  cases parent with
  | none => exact keeps_lookup hs hreceiver selector
  | some parent =>
    refine .get ?_
    split
    · rename_i holder value hfound
      have hparent := mem_parentValues_of_parent? (Heap.walk_found hfound).2
      exact keeps_lookup hs
        (.inl (Heap.Sound.held_accepts hs holder (by simp [Object.held, hparent]))) selector
    · exact .throw hs
    · exact .throw hs

theorem keeps_setSlot {heap : Heap} {frames : List Frame} (hs : heap.Sound policy roots frames)
    (holder : ObjectId) (target : String) {value : Value} (hv : heap.Accepts policy frames value) :
    Heap.Keeps policy roots frames (modifyGet (·.setSlot holder target value)) heap fun _ _ => True := by
  refine ⟨?_, trivial⟩
  split
  · exact hs.assign holder _ hv
  · exact hs.follows_self

theorem keeps_assign (hs : m.Sound policy roots others) (holder : ObjectId) (selector : String)
    {receiver : Value} (hreceiver : m.Usable policy others receiver) {args : List Value}
    (hargs : ∀ value ∈ args, m.Usable policy others value) :
    Keeps policy roots others (assign holder selector receiver args) m fun _ _ => True := by
  unfold assign
  split
  · rename_i value
    refine .get (.get ?_)
    have hvalue := (hargs value List.mem_cons_self).effective hs
    refine (Keeps.onHeap hs (keeps_setSlot hs holder _ hvalue)).bind fun done m' h _ => ?_
    split
    · exact keeps_push h.sound (.inl (h.accepts (hreceiver.effective hs)))
    · exact .throw h.sound
  · exact .throw hs

theorem keeps_follow (hs : m.Sound policy ctx.roots others) {reply : Reply}
    (h : ∀ value ∈ reply.values, m.Accepts policy others value) :
    Keeps policy ctx.roots others (follow ctx reply) m fun _ _ => True := by
  cases reply with
  | answer value => exact keeps_push hs (.inl (h value (by simp [Reply.values])))
  | halt value =>
    refine (keeps_note hs _).bind fun _ m' h' _ => ?_
    exact .modify (follows_conclude h'.sound (h'.accepts (h value (by simp [Reply.values]))) fun _ => rfl) trivial
  | raise value => exact keeps_raise hs (h value (by simp [Reply.values])) none
  | handler block =>
    refine (keeps_updateFrame hs fun frame rest hframes => ?_).mono fun _ _ _ _ => trivial
    refine adjusted hs hframes rfl rfl rfl rfl (fun value hvalue => ?_) fun value hvalue => ?_
    · rcases List.mem_cons.1 hvalue with rfl | hvalue
      · exact .inr (.inl (hs.anchor_accepts (by simp [Roots.ids])))
      · exact .inl hvalue
    · simp only [Frame.held, Frame.push, Option.toList_some, List.mem_cons,
        List.mem_append] at hvalue ⊢
      rcases hvalue with rfl | (rfl | hvalue) | hvalue
      · exact .inl (.inl rfl)
      · exact .inr (h value (by simp [Reply.values]))
      · cases hvalue
      · exact .inl (.inr (.inr hvalue))
  | restore token value => exact keeps_restore hs token (h value (by simp [Reply.values]))

theorem keeps_callNative (hs : m.Sound policy ctx.roots others) (native : Native)
    (selector : String) (receiver : Value) {args : List Value}
    (hargs : ∀ value ∈ args, m.Usable policy others value) :
    Keeps policy ctx.roots others (callNative ctx native selector receiver args) m fun _ _ => True := by
  unfold callNative
  simp only
  split
  · exact .throw hs
  · refine .get (.get ?_)
    have hargs' : ∀ value ∈ args.map m.heap.effective, m.Accepts policy others value := by
      intro value hvalue
      obtain ⟨arg, harg, rfl⟩ := List.mem_map.1 hvalue
      exact (hargs arg harg).effective hs
    refine (Keeps.onHeap hs (Native.keeps_run hs native _ hargs')).bind fun reply m' h hreply => ?_
    refine keeps_follow h.sound fun value hvalue => ?_
    have hsafe := hreply.2 value hvalue
    rwa [Accepts, framesWith, hreply.1]

theorem method_of_behaviorOf {heap : Heap} {object : ObjectId} {method : Method}
    (h : behaviorOf heap (.ref object) = .method method) :
    (heap.object object).shape.method? = some method := by
  unfold behaviorOf at h
  simp only [Heap.object?, Value.toId?, Option.map_some] at h
  split at h
  · cases h
  · exact Heap.method?_eq_some_iff.2 h

theorem keeps_apply (hs : m.Sound policy ctx.roots others) (holder : ObjectId)
    {value receiver : Value} (hv : m.Accepts policy others value)
    (hreceiver : m.Usable policy others receiver) (selector : String) {args : List Value}
    (hargs : ∀ value ∈ args, m.Usable policy others value) :
    Keeps policy ctx.roots others (apply ctx holder value receiver selector args) m fun _ _ => True := by
  have hanswer : Keeps policy ctx.roots others (do push (← effective value)) m fun _ _ => True :=
    .get (keeps_push hs (.inl (Heap.Sound.effective_accepts hs hv.lasts)))
  refine .get ?_
  split
  · exact keeps_assign hs holder selector hreceiver hargs
  · exact keeps_callNative hs _ selector receiver hargs
  · rename_i method object hbehavior
    split
    · exact hanswer
    · refine .get ?_
      have heffective := hreceiver.effective hs
      exact keeps_activate hs (method_of_behaviorOf hbehavior) selector heffective heffective.lasts hargs
        fun error h => (nomatch h)
  · exact hanswer

theorem keeps_dispatch (hs : m.Sound policy ctx.roots others) {receiver : Value}
    (hreceiver : m.Usable policy others receiver) (selector : String) (parent : Option String)
    {args : List Value} (hargs : ∀ value ∈ args, m.Usable policy others value) :
    Keeps policy ctx.roots others (dispatch ctx receiver selector parent args) m fun _ _ => True := by
  refine .get ?_
  simp only
  split
  · rename_i block hblock
    split at hblock
    · obtain ⟨rfl, hplain⟩ := eq_ref_of_block? hblock
      exact keeps_callBlock hs (hreceiver.accepts hs hplain) selector hargs
        fun error h => (nomatch h)
    · cases hblock
  · refine (keeps_resolve hs hreceiver selector parent).bind fun result m' h hresult => ?_
    have htop : m'.top? = m.top? := by rw [top?, hresult.1, top?]
    split
    · exact keeps_apply h.sound _ (hresult.2 _ _ rfl) (hreceiver.follows h htop) selector
        fun value hvalue => (hargs value hvalue).follows h htop
    · exact .throw h.sound
    · exact (keeps_note h.sound _).bind fun _ m'' h' _ => .throw h'.sound

theorem keeps_name (hs : m.Sound policy roots others) (value : Value) :
    Keeps policy roots others (name ctx value) m fun _ m' => m'.top? = m.top? := by
  refine .get ?_
  simp only
  split
  · exact .pure hs rfl
  · exact .throw hs

theorem keeps_names (hs : m.Sound policy roots others) (value : Option Value) :
    Keeps policy roots others (value.mapM (name ctx)) m fun _ m' => m'.top? = m.top? := by
  cases value with
  | none => exact .pure hs rfl
  | some value => exact (keeps_name hs value).bind fun _ _ h htop => .pure h.sound htop

theorem keeps_send (hs : m.Sound policy ctx.roots others) (kind : SendKind) (count : UInt8) :
    Keeps policy ctx.roots others (send ctx kind count) m fun _ _ => True := by
  have hrest {m' : Machine} (hs' : m'.Sound policy ctx.roots others) (selector : Value) (parent : Option Value) :
      Keeps policy ctx.roots others
        (do let operands ← popOperands (kind.argCount count)
            let selector ← name ctx selector
            let parent ← parent.mapM (name ctx)
            note (.sent · selector operands.1)
            dispatch ctx operands.1 selector parent operands.2) m' fun _ _ => True := by
    refine (keeps_popOperands hs' _).bind fun operands m₀ h hoperands => (keeps_name h.sound selector).bind
      fun selector m₁ h₁ htop₁ => (keeps_names h₁.sound parent).bind fun parent m₂ h₂ htop₂ =>
        (keeps_note h₂.sound _).bind fun _ m₃ h₃ heq => ?_
    have htop₃ : m₃.top? = m₂.top? := by rw [top?, heq.2, top?]
    have hkeep {value : Value} (hv : m₀.Usable policy others value) :=
      ((hv.follows h₁ htop₁).follows h₂ htop₂).follows h₃ htop₃
    exact keeps_dispatch h₃.sound (hkeep hoperands.2.1) selector parent fun value hvalue =>
      hkeep (hoperands.2.2 value hvalue)
  refine (keeps_pop hs).bind fun selector m' h _ => ?_
  simp only
  split
  · refine Keeps.bind (P := fun _ _ => True) ?_
      fun parent m'' h' _ => hrest h'.sound selector parent
    exact (keeps_pop h.sound).bind fun parent m'' h' _ => .pure h'.sound trivial
  · exact hrest h.sound selector none

/-! ## Instructions -/

theorem adjusted_capture {frame : Frame} {rest : List Frame} (hs : m.Sound policy roots others)
    (hframes : m.process.frames = frame :: rest) :
    frame.Adjusted policy m.heap (m.framesWith others) { frame with captured := true } :=
  ⟨rfl, .inr rfl, rfl, rfl, (Sound.frame hs hframes).stack, (Sound.frame hs hframes).held⟩

/-- A captured frame does not give its activation back. -/
theorem lasts_of_captured (hs : m.Sound policy roots others) {frame : Frame} {rest : List Frame}
    (hframes : m.process.frames = frame :: rest) (hcaptured : frame.captured = true) :
    m.heap.Lasts (m.framesWith others) frame.activation := by
  intro id hid
  cases hactivation : frame.activation with
  | fixnum n => simp [hactivation, Value.toId?] at hid
  | ref activation =>
    rw [hactivation] at hid
    cases hid
    obtain ⟨hlive, hown⟩ := (Sound.frame hs hframes).activation id hactivation
    refine ⟨hlive, fun other hother hmem => ?_⟩
    simpa [Frame.releasable, hcaptured] using hown other hother hmem

theorem keeps_instantiate (hs : m.Sound policy roots others) (site : Site) (kind : ObjectKind)
    (params : List String) {code : Option Code} (hcode : policy.code (code.getD {}).finalize) :
    Keeps policy roots others (instantiate site kind params code) m fun value m' => m'.Accepts policy others value := by
  refine (Keeps.onHeap hs (Heap.keeps_template hs site kind params hcode)).bind
    fun template m₁ h₁ htemplate => ?_
  refine .frame h₁.sound fun frame rest hframes => ?_
  refine (keeps_updateFrame h₁.sound fun other rest' hother => adjusted_capture h₁.sound hother).bind ?_
  rintro _ m₂ h₂ ⟨other, rest', hother, heq⟩
  rw [hframes] at hother
  cases hother
  have hframes' : m₂.process.frames = { frame with captured := true } :: rest := by rw [heq]
  have hscope := lasts_of_captured h₂.sound hframes' rfl
  have htemplate' : m₁.Accepts policy others (.ref template) := by
    rw [Accepts, framesWith, htemplate.1]
    exact htemplate.2
  refine (Keeps.onHeap h₂.sound (Heap.keeps_instantiate h₂.sound (h₂.accepts htemplate') hscope)).bind
    fun id m₃ h₃ hid => .pure h₃.sound ?_
  rw [Accepts, framesWith, hid.1]
  exact hid.2

theorem mem_of_literal {code : Code} {index : Nat} {l : Literal} (h : code.literal index = .ok l) :
    l ∈ code.literals :=
  List.mem_of_getElem? (Code.literal_eq_ok_iff.1 h)

theorem keeps_literal (hs : m.Sound policy ctx.roots others) (kind : LiteralKind) (index : UInt8) :
    Keeps policy ctx.roots others (literal ctx kind index) m fun value m' => m'.Accepts policy others value := by
  have hheap {y : HeapM Value} (h : Heap.Keeps policy ctx.roots (m.framesWith others) y m.heap fun value heap =>
      heap.Accepts policy (m.framesWith others) value) :
      Keeps policy ctx.roots others (onHeap y) m fun value m' => m'.Accepts policy others value := by
    refine (Keeps.onHeap hs h).mono fun value m' _ hv => ?_
    rw [Accepts, framesWith, hv.1]
    exact hv.2
  unfold literal
  split
  · exact .pure hs (hs.anchor_accepts (by simp [Roots.ids]))
  · exact .pure hs (hs.anchor_accepts (by simp [Roots.ids]))
  · refine .frame hs fun frame rest hframes => ?_
    refine .lift hs fun l hl => ?_
    simp only
    split
    · exact .throw hs
    · split
      · split
        · exact .pure hs (Native.accepts_ofInt? ‹_›)
        · exact .throw hs
      · exact hheap (Heap.keeps_newFloat hs _)
      · exact hheap (Heap.keeps_intern hs _)
      · rename_i kind params code _
        exact keeps_instantiate hs _ kind params
          (policy.nested _ (Sound.frame hs hframes).code kind params code (mem_of_literal hl))

theorem keeps_addSlot (hs : m.Sound policy ctx.roots others) (kind : SlotKind) :
    Keeps policy ctx.roots others (addSlot ctx kind) m fun _ _ => True := by
  refine (keeps_pop hs).bind fun value m₁ h₁ hvalue => (keeps_pop h₁.sound).bind
    fun slot m₂ h₂ hslot =>
    (keeps_pop h₂.sound).bind fun target m₃ h₃ htarget => (keeps_name h₃.sound slot).bind
      fun slot m₄ h₄ htop₄ => ?_
  have hvalue₄ := ((hvalue.2.follows h₂ hslot.1).follows h₃ htarget.1).follows h₄ htop₄
  have htarget₄ := htarget.2.follows h₄ htop₄
  split
  · exact .throw h₄.sound
  · rename_i id
    refine .get ?_
    have haccepts := hvalue₄.effective h₄.sound
    have hextra : ∀ other ∈ [m₄.heap.effective value], m₄.Accepts policy others other := by
      simpa using haccepts
    refine (Keeps.onHeap (R := fun _ _ => True) h₄.sound (.modify ?_ trivial)).bind
      fun _ m₅ h₅ heq => ?_
    · cases kind with
      | normal =>
        exact Heap.Sound.restructure h₄.sound id (fun object => object.addSlot_edited slot _) hextra
      | parent =>
        exact Heap.Sound.restructure h₄.sound id
          (fun object => object.addParent_edited slot _) hextra
    · exact keeps_push h₅.sound (htarget₄.follows h₅ (by rw [top?, heq.1, top?]))

theorem keeps_fetch (hs : m.Sound policy roots others) :
    Keeps policy roots others fetch m fun _ _ => True := by
  refine .frame hs fun frame rest hframes => .lift hs fun instruction _ => (keeps_note hs _).bind
    fun _ m' h heq => ?_
  refine (keeps_updateFrame h.sound fun other rest' hother => ?_).bind
    fun _ m'' h' _ => .pure h'.sound trivial
  exact adjusted h.sound hother rfl rfl rfl rfl (fun _ => .inl) fun _ => .inl

theorem keeps_step (hs : m.Sound policy ctx.roots others) :
    Keeps policy ctx.roots others (step ctx) m fun _ _ => True := by
  refine (keeps_fetch hs).bind fun instruction m' h _ => ?_
  cases instruction with
  | pushSelf =>
    refine (keeps_updateFrame h.sound fun frame rest hframes => ?_).mono fun _ _ _ _ => trivial
    refine adjusted h.sound hframes rfl rfl rfl rfl (fun value hvalue => ?_) fun _ => .inl
    rcases List.mem_cons.1 hvalue with rfl | hvalue
    · exact .inr (.inr (by simp [top?, hframes]))
    · exact .inl hvalue
  | pushLiteral kind index =>
    exact (keeps_literal h.sound kind index).bind fun value m'' h' hv => keeps_push h'.sound
      (.inl hv)
  | pop => exact (keeps_pop h.sound).bind fun _ m'' h' _ => .pure h'.sound trivial
  | send kind count => exact keeps_send h.sound kind count
  | returnTop => exact keeps_returnTop h.sound
  | addSlot kind => exact keeps_addSlot h.sound kind

end Exec

namespace Machine

variable {policy : Policy} {ctx : Context} {others : List Frame} {m m' : Machine} {q : Prop}

theorem Sound.follows_heap (hs : m.Sound policy ctx.roots others) {heap : Heap}
    (h : Heap.Follows policy ctx.roots m.heap (m.framesWith others) heap (m.framesWith others)) :
    m.Follows policy ctx.roots others True { m with heap } :=
  Sound.follows hs h rfl rfl (Nat.le_refl _)

theorem tokened_terminate (ctx : Context) (fault : Fault) (m : Machine) :
    (m.terminate ctx fault).Tokened := by
  unfold terminate
  simp only
  split <;> exact fun index hindex => absurd hindex (Nat.not_lt_zero _)

theorem follows_terminate (hs : m.Sound policy ctx.roots others) (fault : Fault) :
    m.Follows policy ctx.roots others True (m.terminate ctx fault) := by
  have hnote : m.Follows policy ctx.roots others True (m.note (.failed m.process.id fault)) :=
    Sound.follows hs (Heap.Sound.follows_self hs) rfl rfl (Nat.le_refl _)
  have hunwind := hnote.trans (Exec.follows_unwind hnote.sound)
  have hstring := Heap.keeps_newString hunwind.sound fault.message
  unfold terminate
  simp only
  split
  · rename_i message heap hmessage
    obtain ⟨hfollows, haccepts⟩ := Ends.of_ok hstring hmessage
    have hheap := hunwind.trans (Sound.follows_heap hunwind.sound hfollows)
    exact hheap.trans (Exec.follows_conclude hheap.sound haccepts fun _ => rfl)
  · rename_i heap hmessage
    have hfollows := (ends_iff.1 hstring).2 _ _ hmessage
    have hheap := hunwind.trans (Sound.follows_heap hunwind.sound hfollows)
    exact hheap.trans (Exec.follows_conclude hheap.sound
      (hheap.sound.anchor_accepts (by simp [Roots.ids])) fun _ => rfl)

/-- The end of a process needs no tokens. -/
theorem Follows.terminate (h : m.Follows policy ctx.roots others q m') (fault : Fault) :
    m.Follows policy ctx.roots others True (m'.terminate ctx fault) := by
  have hend := follows_terminate h.sound fault
  refine ⟨h.heap.trans hend.heap, hend.id_eq.trans h.id_eq, fun outcome ho => ?_,
    fun _ _ => tokened_terminate ctx fault m'⟩
  rcases hend.outcome outcome ho with ho | ho
  · exact (h.outcome outcome ho).imp_right hend.accepts
  · exact .inr ho

theorem follows_fail (hs : m.Sound policy ctx.roots others) (fault : Fault) :
    m.Follows policy ctx.roots others True (m.fail ctx fault) := by
  have hreport : Exec.Keeps policy ctx.roots others
      (do let message ← Exec.onHeap (ctx.roots.newString fault.message)
          Exec.raise ctx message (some fault)) m fun _ _ => True := by
    refine (Exec.Keeps.onHeap hs (Heap.keeps_newString hs _)).bind fun message m' h hmessage => ?_
    refine Exec.keeps_raise h.sound ?_ (some fault)
    rw [Accepts, framesWith, hmessage.1]
    exact hmessage.2
  unfold fail
  simp only
  split
  · split
    · exact (Ends.of_ok hreport ‹_›).1
    · rename_i fault' m' herror
      exact ((ends_iff.1 hreport).2 _ _ herror).terminate fault'
  · exact follows_terminate hs fault

/-- One instruction keeps the machine sound, whatever becomes of it. -/
theorem follows_advance (hs : m.Sound policy ctx.roots others) :
    m.Follows policy ctx.roots others True (m.advance ctx) := by
  have hstep := Exec.keeps_step hs
  unfold advance
  split
  · exact (Ends.of_ok hstep ‹_›).1
  · rename_i fault m' herror
    have hfault := (ends_iff.1 hstep).2 _ _ herror
    cases hrecoverable : fault.isRecoverable with
    | true =>
      have hm' : m.Follows policy ctx.roots others True m' :=
        ⟨hfault.heap, hfault.id_eq, hfault.outcome, fun _ => hfault.tokened hrecoverable⟩
      exact hm'.trans (follows_fail hm'.sound fault)
    | false =>
      have hfail : m'.fail ctx fault = m'.terminate ctx fault := by simp [fail, hrecoverable]
      rw [hfail]
      exact hfault.terminate fault

end Machine

end ProtoVm
