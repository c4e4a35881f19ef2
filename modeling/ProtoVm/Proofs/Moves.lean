import ProtoVm.Proofs.Rules

/-!
# What an instruction does to its process

An instruction is read and the frame goes past it. After that the process is where it was but for its
operands, or it has called, returned, parked its stack, gone back to a parked one, or ended.
-/

namespace ProtoVm

/-- Where the frame is in its code. -/
def Frame.place (frame : Frame) : Body × Nat := (frame.body, frame.ip)

namespace Process

/-- The same process at the same place; its innermost frame may have other operands. -/
structure Stays (process process' : Process) : Prop where
  id_eq : process'.id = process.id
  parked_eq : process'.parked = process.parked
  outcome_eq : process'.outcome = process.outcome
  callers_eq : process'.frames.tail = process.frames.tail
  place_eq : process'.frames.head?.map Frame.place = process.frames.head?.map Frame.place

/-- How the process goes on from where it stands. -/
inductive Turns (maxFrames : Nat) (restores : Nat → Prop) (process : Process) : Process → Prop
  | stop {process' : Process} (h : process'.isFinished = true) : Turns maxFrames restores process process'
  | stay : Turns maxFrames restores process process
  | call {frame : Frame} (hip : frame.ip = 0) (hdepth : process.frames.length < maxFrames) :
      Turns maxFrames restores process { process with frames := frame :: process.frames }
  | back {frame caller caller' : Frame} {callers : List Frame} (h : process.frames = frame :: caller :: callers)
      (hplace : caller'.place = caller.place) :
      Turns maxFrames restores process { process with frames := caller' :: callers }
  | park {frame : Frame} (hip : frame.ip = 0) :
      Turns maxFrames restores process
        { process with frames := [frame], parked := process.parked ++ [some process.frames] }
  | resume {index : Nat} {frame frame' : Frame} {callers : List Frame}
      (h : process.parked[index]? = some (some (frame :: callers))) (hplace : frame'.place = frame.place)
      (hrestores : restores index) :
      Turns maxFrames restores process
        { process with frames := frame' :: callers, parked := process.parked.set index none }

/-- The innermost frame has gone past an instruction of its code. -/
structure Fetches (process process' : Process) : Prop where
  id_eq : process'.id = process.id
  parked_eq : process'.parked = process.parked
  outcome_eq : process'.outcome = process.outcome
  frames : ∃ frame callers ip, process.frames = frame :: callers ∧ process'.frames = { frame with ip } :: callers ∧
    frame.ip < ip ∧ ip ≤ frame.body.code.bytes.size

/-- What can become of a process in the time of one instruction. -/
inductive Moves (maxFrames : Nat) (restores : Nat → Prop) (process : Process) : Process → Prop
  | stop {process' : Process} (h : process'.isFinished = true) : Moves maxFrames restores process process'
  | go {fetched settled process' : Process} (hfetch : process.Fetches fetched) (hstay : fetched.Stays settled)
      (h : settled.Turns maxFrames restores process') : Moves maxFrames restores process process'

variable {process process' process'' : Process}

theorem Stays.refl (process : Process) : process.Stays process := ⟨rfl, rfl, rfl, rfl, rfl⟩

theorem Stays.trans (h : process.Stays process') (h' : process'.Stays process'') :
    process.Stays process'' :=
  ⟨h'.id_eq.trans h.id_eq, h'.parked_eq.trans h.parked_eq, h'.outcome_eq.trans h.outcome_eq,
    h'.callers_eq.trans h.callers_eq, h'.place_eq.trans h.place_eq⟩

theorem Stays.frames (h : process.Stays process') {frame : Frame} {callers : List Frame}
    (hframes : process.frames = frame :: callers) :
    ∃ frame', process'.frames = frame' :: callers ∧ frame'.place = frame.place := by
  have hcallers := h.callers_eq
  have hplace := h.place_eq
  rw [hframes] at hcallers hplace
  cases hframes' : process'.frames with
  | nil => simp [hframes'] at hplace
  | cons frame' callers' =>
    rw [hframes'] at hcallers hplace
    rw [List.tail_cons, List.tail_cons] at hcallers
    exact ⟨frame', by rw [hcallers], by simpa using hplace⟩

end Process

namespace Exec

/-- The operation leaves the process at its place and a result of it has `P`. -/
def Steady {α : Type} (x : Exec α) (m : Machine) (P : α → Machine → Prop) : Prop :=
  Ends x m (fun a m' => m.process.Stays m'.process ∧ P a m') fun _ m' => m.process.Stays m'.process

/-- The operation lets the process go on. If it fails in a way that a handler can answer, the process is
still at its place. -/
def Turns {α : Type} (ctx : Context) (restores : Nat → Prop) (x : Exec α) (m : Machine) : Prop :=
  Ends x m (fun _ m' => ∃ settled, m.process.Stays settled ∧ settled.Turns ctx.maxFrames restores m'.process)
    fun fault m' => fault.isRecoverable = true → m.process.Stays m'.process

section

variable {α β : Type} {x : Exec α} {m : Machine} {P Q : α → Machine → Prop} {ctx : Context} {restores : Nat → Prop}

theorem Steady.mono (h : Steady x m P)
    (himp : ∀ a m', m.process.Stays m'.process → P a m' → Q a m') : Steady x m Q :=
  Ends.mono h (fun a m' h => ⟨h.1, himp a m' h.1 h.2⟩) fun _ _ h => h

theorem Steady.pure {a : α} (h : P a m) : Steady (pure a) m P := ⟨.refl _, h⟩

theorem Steady.throw {fault : Fault} : Steady (throw fault) m P := Process.Stays.refl _

theorem Steady.get {f : Machine → Exec α} (h : Steady (f m) m P) : Steady (MonadState.get >>= f) m P := h

theorem Steady.bind {f : α → Exec β} {Q : β → Machine → Prop} (h : Steady x m P)
    (hf : ∀ a m', m.process.Stays m'.process → P a m' → Steady (f a) m' Q) :
    Steady (x >>= f) m Q := by
  unfold Steady
  rw [ends_bind]
  refine Ends.mono h (fun a m' ha => ?_) fun _ _ h => h
  exact Ends.mono (hf a m' ha.1 ha.2) (fun b m'' hb => ⟨ha.1.trans hb.1, hb.2⟩)
    fun _ _ hb => ha.1.trans hb

theorem Steady.turns (h : Steady x m P) : Turns ctx restores x m :=
  Ends.mono h (fun _ m' h => ⟨m'.process, h.1, .stay⟩) fun _ _ h _ => h

theorem Steady.then {f : α → Exec β} (h : Steady x m P)
    (hf : ∀ a m', m.process.Stays m'.process → P a m' → Turns ctx restores (f a) m') :
    Turns ctx restores (x >>= f) m := by
  unfold Turns
  rw [ends_bind]
  refine Ends.mono h (fun a m' ha => ?_) fun _ _ h _ => h
  refine Ends.mono (hf a m' ha.1 ha.2) (fun b m'' hb => ?_) fun fault m'' hb hfault => ha.1.trans
    (hb hfault)
  obtain ⟨settled, hstay, hturn⟩ := hb
  exact ⟨settled, ha.1.trans hstay, hturn⟩

theorem Turns.get {f : Machine → Exec α} (h : Turns ctx restores (f m) m) :
    Turns ctx restores (MonadState.get >>= f) m := h

theorem Turns.throw {fault : Fault} : Turns ctx restores (throw fault : Exec α) m := fun _ => .refl _

/-- What an operation has left to do is done on the spot. -/
theorem Turns.modify {edit : Machine → Machine}
    (h : m.process.Turns ctx.maxFrames restores (edit m).process) :
    Turns ctx restores (modify edit) m :=
  ⟨m.process, .refl _, h⟩

end

variable {m : Machine} {ctx : Context} {restores : Nat → Prop}

/-! ## Operations that stay where they are -/

theorem steady_onHeap {α : Type} (y : HeapM α) :
    Steady (onHeap y) m fun _ m' => m'.process = m.process := by
  refine ends_onHeap.2 (ends_iff.2 ⟨fun a heap _ => ⟨.refl _, rfl⟩, fun fault heap _ => .refl _⟩)

theorem steady_note (event : ProcessId → Event) :
    Steady (note event) m fun _ m' => m'.heap = m.heap ∧ m'.process = m.process := ⟨.refl _, rfl, rfl⟩

theorem Steady.frame {α : Type} {f : Frame → Exec α} {P : α → Machine → Prop}
    (h : ∀ frame callers, m.process.frames = frame :: callers → Steady (f frame) m P) :
    Steady (Exec.frame >>= f) m P := by
  unfold Exec.frame Steady
  simp only [ends_bind, ends_get]
  split
  · exact h _ _ ‹_›
  · exact .refl _

theorem steady_updateFrame {edit : Frame → Frame} (h : ∀ frame, (edit frame).place = frame.place) :
    Steady (updateFrame edit) m fun _ m' => m'.heap = m.heap := by
  unfold Steady Ends updateFrame
  cases hframes : m.process.frames with
  | nil => exact .refl _
  | cons frame callers => exact ⟨⟨rfl, rfl, rfl, by simp [hframes], by simp [hframes, h]⟩, rfl⟩

theorem steady_push (value : Value) : Steady (push value) m fun _ m' => m'.heap = m.heap :=
  steady_updateFrame fun _ => rfl

theorem steady_pop : Steady pop m fun _ m' => m'.heap = m.heap := by
  refine .frame fun frame callers hframes => ?_
  split
  · refine Steady.bind (steady_updateFrame ?_) fun _ m' _ heq => .pure heq
    exact fun _ => rfl
  · exact .throw

theorem steady_popOperands (argc : Nat) :
    Steady (popOperands argc) m fun _ m' => m'.heap = m.heap := by
  refine .frame fun frame callers hframes => ?_
  split
  · refine Steady.bind (steady_updateFrame ?_) fun _ m' _ heq => .pure heq
    exact fun _ => rfl
  · exact .throw

theorem steady_name (value : Value) : Steady (name ctx value) m fun _ m' => m' = m := by
  refine .get ?_
  simp only
  split
  · exact .pure rfl
  · exact .throw

theorem steady_names (value : Option Value) :
    Steady (value.mapM (name ctx)) m fun _ m' => m' = m := by
  cases value with
  | none => exact .pure rfl
  | some value => exact (steady_name value).bind fun _ _ _ heq => .pure heq

theorem steady_lookup (value : Value) (name : String) :
    Steady (lookup ctx value name) m fun _ m' => m'.process = m.process := ⟨.refl _, rfl⟩

theorem steady_resolve (receiver : Value) (selector : String) (parent : Option String) :
    Steady (resolve ctx receiver selector parent) m fun _ m' => m'.process = m.process := by
  cases parent with
  | none => exact steady_lookup receiver selector
  | some parent =>
    refine .get ?_
    split
    · exact steady_lookup _ selector
    · exact .throw
    · exact .throw

theorem steady_assign (holder : ObjectId) (selector : String) (receiver : Value)
    (args : List Value) : Steady (assign holder selector receiver args) m fun _ _ => True := by
  unfold assign
  split
  · refine .get (.get ?_)
    refine (steady_onHeap _).bind fun ok m' _ _ => ?_
    cases ok with
    | true => exact (steady_push _).mono fun _ _ _ _ => trivial
    | false => exact .throw
  · exact .throw

theorem steady_instantiate (site : Site) (kind : ObjectKind) (params : List String)
    (code : Option Code) : Steady (instantiate site kind params code) m fun _ _ => True := by
  refine (steady_onHeap _).bind fun template m₁ _ _ => .frame fun frame callers _ => ?_
  refine Steady.bind (steady_updateFrame ?_) fun _ m₂ _ _ => (steady_onHeap _).bind
    fun id m₃ _ _ => .pure trivial
  exact fun _ => rfl

theorem Steady.lift {α β : Type} {y : Except Fault α} {f : α → Exec β} {Q : β → Machine → Prop}
    (h : ∀ a, y = .ok a → Steady (f a) m Q) : Steady (liftExcept y >>= f) m Q := by
  unfold Steady
  rw [ends_bind]
  exact ends_liftExcept.2 ⟨h, fun _ _ => .refl _⟩

theorem steady_literal (kind : LiteralKind) (index : UInt8) :
    Steady (literal ctx kind index) m fun _ _ => True := by
  unfold literal
  split
  · exact .pure trivial
  · exact .pure trivial
  · refine .frame fun frame callers _ => .lift fun l _ => ?_
    simp only
    split
    · exact .throw
    · split
      · split
        · exact .pure trivial
        · exact .throw
      · exact (steady_onHeap _).mono fun _ _ _ _ => trivial
      · exact (steady_onHeap _).mono fun _ _ _ _ => trivial
      · exact steady_instantiate _ _ _ _

theorem steady_addSlot (kind : SlotKind) : Steady (addSlot ctx kind) m fun _ _ => True := by
  refine steady_pop.bind fun value m₁ _ _ => steady_pop.bind fun slot m₂ _ _ => steady_pop.bind
    fun target m₃ _ _ => (steady_name slot).bind fun slot m₄ _ _ => ?_
  split
  · exact .throw
  · refine .get ((steady_onHeap _).bind fun _ m₅ _ _ => ?_)
    exact (steady_push _).mono fun _ _ _ _ => trivial

/-! ## Calls -/

/-- The process gets a new innermost frame, or a fault that no handler can answer. -/
def Enters (ctx : Context) (x : Exec Unit) (m : Machine) : Prop :=
  Ends x m
    (fun _ m' => ∃ frame : Frame, frame.ip = 0 ∧ m.process.frames.length < ctx.maxFrames ∧
      m'.process = { m.process with frames := frame :: m.process.frames })
    fun fault _ => fault.isRecoverable = false

theorem enters_activate (object : ObjectId) (method : Method) (selector : String)
    (receiver lexical : Value) (args : List Value) (kind : FrameKind) :
    Enters ctx (activate ctx object method selector receiver lexical args kind) m := by
  unfold activate Enters
  split
  · rfl
  · simp only [ends_bind, ends_get]
    split
    · rfl
    · rename_i hdepth
      rw [ends_bind, ends_onHeap]
      refine ends_iff.2 ⟨fun records heap _ => ?_, fun fault heap herror => ?_⟩
      · simp only [ends_bind, note, ends_modify]
        exact ⟨_, rfl, Nat.lt_of_not_le hdepth, rfl⟩
      · exact Fault.isRecoverable_of_isOperational (Heap.newRecords_fault herror)

theorem enters_callBlock (block : ObjectId) (selector : String) (args : List Value)
    (kind : FrameKind) : Enters ctx (callBlock ctx block selector args kind) m := by
  unfold callBlock Enters
  simp only [ends_bind, ends_get]
  split
  · rfl
  · exact enters_activate _ _ _ _ _ _ _

theorem Enters.turns {x : Exec Unit} (h : Enters ctx x m) : Turns ctx restores x m := by
  refine Ends.mono h (fun _ m' hm => ?_) fun fault _ h hrecoverable => ?_
  · obtain ⟨frame, hip, hdepth, heq⟩ := hm
    exact ⟨m.process, .refl _, heq ▸ .call hip hdepth⟩
  · rw [h] at hrecoverable
    cases hrecoverable

theorem isFinished_terminate (fault : Fault) (m : Machine) :
    (m.terminate ctx fault).process.isFinished = true := by
  unfold Machine.terminate
  simp only
  split <;> rfl

theorem turns_returnTop : Turns ctx restores (returnTop ctx) m := by
  unfold returnTop Turns Exec.frame
  simp only [ends_bind, ends_get]
  split
  · rename_i frame callers hframes
    simp only [ends_pure]
    split
    · simp only [leave, note, ends_bind, ends_modify]
      exact ⟨m.process, .refl _, .stop rfl⟩
    · simp only [leave, effective, hframes, ends_bind, ends_get, ends_pure, ends_modify]
      cases callers with
      | nil => exact ⟨m.process, .refl _, .stop rfl⟩
      | cons caller callers =>
        exact ⟨m.process, .refl _, .back hframes rfl⟩
  · exact fun _ => .refl _

/-! ## Errors -/

/-- A handler gets a stack of its own, and the stack it interrupts is parked. -/
theorem raise_of_handler {block : ObjectId} (h : m.process.handler?.bind m.heap.block? = some block) (value : Value)
    (cause : Option Fault) :
    Ends (raise ctx value cause) m
      (fun _ m' => ∃ frame : Frame, frame.ip = 0 ∧
        m'.process = { m.process with frames := [frame], parked := m.process.parked ++ [some m.process.frames] })
      fun fault _ => fault.isRecoverable = false := by
  unfold raise
  simp only [ends_bind, ends_get, h, suspend, ends_modifyGet, Process.suspend, ends_onHeap]
  refine ends_iff.2 ⟨fun token heap htoken => ?_, fun fault heap hfault => ?_⟩
  · simp only [note, ends_modify]
    refine Ends.mono (enters_callBlock _ _ _ _) (fun _ m' hm => ?_) fun _ _ h => h
    obtain ⟨frame, hip, -, heq⟩ := hm
    exact ⟨frame, hip, heq⟩
  · rw [(Heap.allocate_error hfault).2]
    rfl

theorem turns_raise (value : Value) (cause : Option Fault) :
    Turns ctx restores (raise ctx value cause) m := by
  cases hblock : m.process.handler?.bind m.heap.block? with
  | none =>
    unfold raise Turns
    simp only [ends_bind, ends_get, hblock, note, ends_modify]
    exact ⟨m.process, .refl _, .stop rfl⟩
  | some block =>
    refine Ends.mono (raise_of_handler hblock value cause) (fun _ m' hm => ?_)
      fun fault _ h hrecoverable => ?_
    · obtain ⟨frame, hip, heq⟩ := hm
      exact ⟨m.process, .refl _, heq ▸ .park hip⟩
    · rw [h] at hrecoverable
      cases hrecoverable

end Exec

/-- The owner and the number of the parked stack that a token stands for. -/
def Heap.token? (heap : Heap) (value : Value) : Option (ProcessId × Nat) :=
  match heap.object? value with
  | some { payload := .token owner index, .. } => some (owner, index)
  | _ => none

namespace Exec

variable {m : Machine} {ctx : Context} {restores : Nat → Prop}

theorem restore_of_token? {token : Value} {index : Nat} (h : m.heap.token? token = some (m.process.id, index))
    {frames : List Frame} (hparked : m.process.parked[index]? = some (some frames)) (value : Value) :
    restore token value m =
      push value { m.release m.process.frames.reverse with
        process := { m.process with parked := m.process.parked.set index none, frames }
        journal := .resumed m.process.id index :: m.journal } := by
  unfold Heap.token? at h
  split at h
  · rename_i hobject
    cases h
    have htake : m.process.takeParked index =
        some (frames, { m.process with parked := m.process.parked.set index none }) := by
      simp [Process.takeParked, hparked]
    refine (get_bind _ m).trans ?_
    simp only [hobject, ne_eq, not_true_eq_false, if_false, htake]
    rfl
  · cases h

/-- Without a stack of its own behind the token a process cannot go on. -/
theorem restore_of_ne {token : Value}
    (h : ∀ index frames, m.heap.token? token = some (m.process.id, index) →
      m.process.parked[index]? ≠ some (some frames)) (value : Value) :
    restore token value m = .error .invalidToken m := by
  have hends : Ends (restore token value) m (fun _ _ => False) fun fault m' => fault = .invalidToken ∧ m' = m := by
    unfold restore
    simp only [ends_bind, ends_get]
    split
    · rename_i owner index hobject
      split
      · exact ⟨rfl, rfl⟩
      · rename_i howner
        have htoken : m.heap.token? token = some (m.process.id, index) := by
          simp [Heap.token?, hobject, not_not.1 howner]
        split
        · exact ⟨rfl, rfl⟩
        · exact absurd (takeParked_eq_some ‹_›).1 (h index _ htoken)
    · exact ⟨rfl, rfl⟩
  cases hrestore : restore token value m with
  | ok a m' => exact absurd (hends.of_ok hrestore) id
  | error fault m' =>
    obtain ⟨rfl, rfl⟩ := hends.of_error hrestore
    rfl

theorem turns_restore {token : Value}
    (hr : ∀ index, m.heap.token? token = some (m.process.id, index) → restores index)
    (value : Value) : Turns ctx restores (restore token value) m := by
  by_cases h : ∃ index frames, m.heap.token? token = some (m.process.id, index) ∧
      m.process.parked[index]? = some (some frames)
  · obtain ⟨index, frames, htoken, hparked⟩ := h
    unfold Turns Ends
    rw [restore_of_token? htoken hparked]
    cases frames with
    | nil => exact fun h => (nomatch h)
    | cons frame callers => exact ⟨m.process, .refl _, .resume hparked rfl (hr index htoken)⟩
  · unfold Turns Ends
    rw [restore_of_ne fun index frames htoken hparked => h ⟨index, frames, htoken, hparked⟩]
    exact fun h => (nomatch h)

/-! ## Sends -/

/-- Every reply that comes satisfies `P`, with the heap it leaves. -/
def Replies (P : Reply → Heap → Prop) (x : HeapM Reply) : Prop :=
  ∀ heap reply heap', x heap = .ok reply heap' → P reply heap'

section

variable {P : Reply → Heap → Prop}

theorem Replies.bind {α : Type} {x : HeapM α} {f : α → HeapM Reply} (h : ∀ a, Replies P (f a)) :
    Replies P (x >>= f) := by
  intro heap reply heap' hok
  cases hx : x heap with
  | ok a heap₁ => exact h a heap₁ reply heap' (by rwa [bind_of_ok hx] at hok)
  | error fault heap₁ =>
    rw [bind_of_error hx] at hok
    cases hok

theorem Replies.throw {fault : Fault} : Replies P (throw fault) := fun _ _ _ h => (nomatch h)

theorem Replies.pure {reply : Reply} (h : ∀ heap, P reply heap) : Replies P (pure reply) := by
  rintro heap _ heap' ⟨⟩
  exact h heap

theorem Replies.answer (h : ∀ value heap, P (.answer value) heap) (x : HeapM Value) :
    Replies P (do return .answer (← x)) :=
  .bind fun value => .pure (h value)

/-- Only natives of the control group ask for more than that their answer is taken. -/
theorem replies_run {native : Native} {roots : Roots} {receiver : Value} {args : List Value}
    (h : ∀ value heap, P (.answer value) heap)
    (hcontrol : native ∈ NativeGroup.control.natives → Replies P (native.run roots receiver args)) :
    Replies P (native.run roots receiver args) := by
  have hplain (value : Value) : Replies P (return .answer value) := .pure (h value)
  cases native with
  | fixnumArithmetic op =>
    refine .bind fun _ => .bind fun a => .bind fun arg => .bind fun b => ?_
    cases b with
    | fixnum n => exact .answer h _
    | float x => exact .answer h _
  | fixnumComparison relation =>
    refine .bind fun a => .bind fun arg => .bind fun b => ?_
    cases b with
    | fixnum n => exact hplain _
    | float x => exact hplain _
  | floatArithmetic op => exact .bind fun a => .bind fun arg => .bind fun b => .answer h _
  | floatComparison relation => exact .bind fun a => .bind fun arg => .bind fun b => hplain _
  | concatenate => exact .bind fun a => .bind fun arg => .bind fun b => .answer h _
  | sameText => exact .bind fun a => .bind fun b => .bind fun heap => hplain _
  | textSize =>
    refine .bind fun s => ?_
    split
    · exact hplain _
    · exact .throw
  | printString => exact .bind fun heap => .answer h _
  | identical => exact .bind fun arg => hplain _
  | halt | raise | setHandler | restore => exact hcontrol (by decide)

end

/-- The native does not ask for a parked stack. -/
def StaysAway (x : HeapM Reply) : Prop :=
  ∀ heap reply heap', x heap = .ok reply heap' → ∀ token value, reply ≠ .restore token value

theorem staysAway_run {native : Native} (h : native ≠ .restore) (roots : Roots) (receiver : Value)
    (args : List Value) : StaysAway (native.run roots receiver args) := by
  refine replies_run (fun _ _ _ _ h => (nomatch h)) fun hcontrol => ?_
  cases native with
  | halt => exact .bind fun value => .pure fun _ _ _ h => (nomatch h)
  | raise => exact .bind fun value => .pure fun _ _ _ h => (nomatch h)
  | setHandler =>
    refine .bind fun handler => .bind fun heap => ?_
    split
    · exact .pure fun _ _ _ h => (nomatch h)
    · exact .bind fun heap => .throw
  | restore => exact absurd rfl h
  | _ => simp [NativeGroup.natives] at hcontrol

theorem turns_follow {reply : Reply}
    (hr : ∀ token value index, reply = .restore token value → m.heap.token? token =
      some (m.process.id, index) → restores index) : Turns ctx restores (follow ctx reply) m := by
  cases reply with
  | answer value => exact (steady_push value).turns
  | halt value =>
    refine (steady_note _).then fun _ m' _ _ => ?_
    exact .modify (.stop rfl)
  | raise value => exact turns_raise value none
  | handler block =>
    refine Steady.turns (steady_updateFrame ?_)
    exact fun _ => rfl
  | restore token value => exact turns_restore (fun index => hr token value index rfl) value

theorem turns_callNative {native : Native} {args : List Value}
    (hr : ∀ token value index, native = .restore → args = [token, value] →
      m.heap.token? (m.heap.effective token) = some (m.process.id, index) → restores index)
    (selector : String) (receiver : Value) :
    Turns ctx restores (callNative ctx native selector receiver args) m := by
  unfold callNative
  split
  · exact .throw
  · refine .get (.get ?_)
    unfold Turns
    rw [ends_bind, ends_onHeap]
    refine ends_iff.2 ⟨fun reply heap h => ?_, fun fault heap _ _ => .refl _⟩
    refine turns_follow fun token value index heq htoken => ?_
    have hnative : native = .restore := by
      by_contra hnative
      exact staysAway_run hnative _ _ _ _ _ _ h token value heq
    rw [hnative] at h
    obtain ⟨first, second, hargs⟩ : ∃ first second, args = [first, second] := by
      rename_i hlength
      rw [hnative, not_not] at hlength
      exact List.length_eq_two.1 hlength
    rw [hargs] at h
    cases h
    cases heq
    exact hr first second index hnative hargs htoken

theorem turns_apply (holder : ObjectId) {value : Value} {args : List Value}
    (hr : ∀ token arg index, behaviorOf m.heap value = .native .restore → args = [token, arg] →
      m.heap.token? (m.heap.effective token) = some (m.process.id, index) → restores index)
    (receiver : Value) (selector : String) :
    Turns ctx restores (apply ctx holder value receiver selector args) m := by
  refine .get ?_
  split
  · exact (steady_assign holder selector receiver args).turns
  · rename_i native hbehavior
    exact turns_callNative
      (fun token arg index hnative => hr token arg index (hnative ▸ hbehavior)) selector receiver
  · split
    · exact (Steady.get (steady_push _)).turns
    · exact .get (enters_activate _ _ _ _ _ _ _).turns
  · exact (Steady.get (steady_push _)).turns

/-- A message with its operands. -/
structure Message where
  receiver : Value
  selector : String
  parent : Option String
  args : List Value

/-- The block that a message calls without a search. -/
def called? (heap : Heap) (message : Message) : Option ObjectId :=
  if message.parent.isNone && Selector.isBlockCall message.selector message.args.length then
    heap.block? message.receiver
  else none

/-- Takes a message off the stack. -/
def message (ctx : Context) (kind : SendKind) (count : UInt8) : Exec Message := do
  let selector ← pop
  let parent ← if kind.isResend then some <$> pop else pure none
  let (receiver, args) ← popOperands (kind.argCount count)
  let selector ← name ctx selector
  let parent ← parent.mapM (name ctx)
  note (.sent · selector receiver)
  return ⟨receiver, selector, parent, args⟩

theorem send_eq (kind : SendKind) (count : UInt8) :
    send ctx kind count =
      (do let message ← message ctx kind count
          dispatch ctx message.receiver message.selector message.parent message.args) := by
  unfold send message
  cases hresend : kind.isResend <;> simp only [bind_assoc, pure_bind, if_true, if_false, Bool.false_eq_true]

theorem steady_message (kind : SendKind) (count : UInt8) :
    Steady (message ctx kind count) m fun _ _ => True := by
  have hrest {m' : Machine} (selector : Value) (parent : Option Value) :
      Steady
        (do let (receiver, args) ← popOperands (kind.argCount count)
            let selector ← name ctx selector
            let parent ← parent.mapM (name ctx)
            note (.sent · selector receiver)
            return (⟨receiver, selector, parent, args⟩ : Message)) m' fun _ _ => True :=
    (steady_popOperands _).bind fun operands _ _ _ => (steady_name selector).bind fun selector _ _ _ =>
      (steady_names parent).bind fun parent _ _ _ => (steady_note _).bind fun _ _ _ _ => .pure trivial
  refine steady_pop.bind fun selector m' _ _ => ?_
  simp only
  split
  · refine Steady.bind (P := fun _ _ => True) ?_ fun parent m'' _ _ => hrest selector parent
    exact steady_pop.bind fun parent m'' _ _ => .pure trivial
  · exact hrest selector none

theorem turns_dispatch {message : Message}
    (hr : ∀ m' holder value token arg index, called? m.heap message = none →
      resolve ctx message.receiver message.selector message.parent m = .ok (.found holder value) m' →
      behaviorOf m'.heap value = .native .restore → message.args = [token, arg] →
      m'.heap.token? (m'.heap.effective token) = some (m'.process.id, index) → restores index) :
    Turns ctx restores (dispatch ctx message.receiver message.selector message.parent message.args) m := by
  refine .get ?_
  simp only
  split
  · exact (enters_callBlock _ _ _ _).turns
  · rename_i hblock
    have hsteady : Steady (resolve ctx message.receiver message.selector message.parent) m
      fun _ m' => m'.process = m.process := steady_resolve _ _ _
    unfold Turns
    rw [ends_bind]
    refine ends_iff.2
      ⟨fun result m' hresolve => ?_, fun fault m' hresolve _ => hsteady.of_error hresolve⟩
    rw [← (hsteady.of_ok hresolve).2]
    cases result with
    | found holder value =>
      exact turns_apply holder
        (fun token arg index => hr m' holder value token arg index hblock hresolve) _ _
    | missing => exact fun _ => .refl _
    | ambiguous first second => exact fun _ => .refl _

end Exec

namespace Machine

/-- The native to which a message comes, and the machine at that moment. -/
def native? (ctx : Context) (sent : Machine) (message : Exec.Message) : Option (Native × Machine) :=
  match Exec.called? sent.heap message with
  | some _ => none
  | none =>
    match Exec.resolve ctx message.receiver message.selector message.parent sent with
    | .ok (.found _ value) k =>
      match Exec.behaviorOf k.heap value with
      | .native native => some (native, k)
      | _ => none
    | _ => none

/-- If the next instruction sends a message that comes to a native: which one, its arguments and the machine
at that moment, with the operands off the stack. -/
def invoked? (ctx : Context) (m : Machine) : Option (Native × List Value × Machine) :=
  match Exec.fetch m with
  | .ok (.send kind count) fetched =>
    match Exec.message ctx kind count fetched with
    | .ok message sent => (native? ctx sent message).map fun (native, k) => (native, message.args, k)
    | _ => none
  | _ => none

/-- The next instruction wants to go on with the stack `index` that `owner` parked. -/
def Restores (ctx : Context) (m : Machine) (owner : ProcessId) (index : Nat) : Prop :=
  ∃ token value k, m.invoked? ctx = some (.restore, [token, value], k) ∧
    k.heap.token? (k.heap.effective token) = some (owner, index)

/-- The owner and the number of the stack that the next instruction wants to go on with. -/
def restored? (ctx : Context) (m : Machine) : Option (ProcessId × Nat) :=
  match m.invoked? ctx with
  | some (.restore, [token, _], k) => k.heap.token? (k.heap.effective token)
  | _ => none

theorem restored?_eq_some_iff {ctx : Context} {m : Machine} {owner : ProcessId} {index : Nat} :
    m.restored? ctx = some (owner, index) ↔ m.Restores ctx owner index := by
  unfold restored? Restores
  constructor
  · intro h
    split at h
    · exact ⟨_, _, _, ‹_›, h⟩
    · cases h
  · rintro ⟨token, value, k, hinvoked, htoken⟩
    simp only [hinvoked, htoken]

instance {ctx : Context} {m : Machine} {owner : ProcessId} {index : Nat} : Decidable (m.Restores ctx owner index) :=
  decidable_of_iff _ restored?_eq_some_iff

end Machine

/-- The faults of code that cannot be read. -/
def Fault.isUnreadable : Fault → Bool
  | truncatedCode _ | invalidOpcode _ | invalidOperand .. => true
  | _ => false

namespace Exec

variable {m : Machine} {ctx : Context} {restores : Nat → Prop}

theorem bind_eq_ok {α β : Type} {x : Except Fault α} {f : α → Except Fault β} {b : β}
    (h : x >>= f = .ok b) : ∃ a, x = .ok a ∧ f a = .ok b := by
  cases x with
  | error fault => cases h
  | ok a => exact ⟨a, rfl, h⟩

theorem lt_size_of_fetch {bytes : Array UInt8} {offset : Nat} {byte : UInt8}
    (h : Instruction.fetch bytes offset = .ok byte) : offset < bytes.size := by
  unfold Instruction.fetch at h
  split at h
  · rename_i hbyte
    exact (Array.getElem?_eq_some_iff.1 hbyte).1
  · cases h

/-- An instruction that can be read ends inside its code. -/
theorem add_length_le_of_decode {bytes : Array UInt8} {offset : Nat} {instruction : Instruction}
    (h : Instruction.decode bytes offset = .ok instruction) :
    offset + instruction.length ≤ bytes.size := by
  obtain ⟨byte, hbyte, h⟩ := bind_eq_ok h
  have hsize := lt_size_of_fetch hbyte
  split at h
  · cases h
  · cases h
    exact hsize
  · cases h
    exact hsize
  · cases h
    exact hsize
  · obtain ⟨kind, hkind, h⟩ := bind_eq_ok h
    obtain ⟨operand, hoperand, h⟩ := bind_eq_ok h
    cases h
    exact lt_size_of_fetch hoperand
  · obtain ⟨kind, hkind, h⟩ := bind_eq_ok h
    obtain ⟨operand, hoperand, h⟩ := bind_eq_ok h
    cases h
    exact lt_size_of_fetch hoperand
  · obtain ⟨kind, hkind, h⟩ := bind_eq_ok h
    obtain ⟨operand, hoperand, -⟩ := bind_eq_ok hkind
    cases h
    exact lt_size_of_fetch hoperand

theorem bind_eq_error {α β : Type} {x : Except Fault α} {f : α → Except Fault β} {fault : Fault}
    (h : x >>= f = .error fault) : x = .error fault ∨ ∃ a, f a = .error fault := by
  cases x with
  | error fault' =>
    cases h
    exact .inl rfl
  | ok a => exact .inr ⟨a, h⟩

theorem isUnreadable_of_fetch {bytes : Array UInt8} {offset : Nat} {fault : Fault}
    (h : Instruction.fetch bytes offset = .error fault) : fault.isUnreadable = true := by
  unfold Instruction.fetch at h
  split at h
  · cases h
  · cases h
    rfl

theorem isUnreadable_of_fetchKind {α : Type} {ofByte? : UInt8 → Option α} {bytes : Array UInt8}
    {offset : Nat} {fault : Fault} (h : Instruction.fetchKind ofByte? bytes offset = .error fault) :
    fault.isUnreadable = true := by
  rcases bind_eq_error h with h | ⟨byte, h⟩
  · exact isUnreadable_of_fetch h
  · split at h
    · cases h
    · cases h
      rfl

theorem isUnreadable_of_decode {bytes : Array UInt8} {offset : Nat} {fault : Fault}
    (h : Instruction.decode bytes offset = .error fault) : fault.isUnreadable = true := by
  have hoperand {α : Type} {f : UInt8 → α} (h : (do return f (← Instruction.fetch bytes (offset + 2))) = .error fault) :
      fault.isUnreadable = true := by
    rcases bind_eq_error h with h | ⟨operand, h⟩
    · exact isUnreadable_of_fetch h
    · cases h
  rcases bind_eq_error h with h | ⟨byte, h⟩
  · exact isUnreadable_of_fetch h
  split at h
  · cases h
    rfl
  · cases h
  · cases h
  · cases h
  · rcases bind_eq_error h with h | ⟨kind, h⟩
    · exact isUnreadable_of_fetchKind h
    · exact hoperand h
  · rcases bind_eq_error h with h | ⟨kind, h⟩
    · exact isUnreadable_of_fetchKind h
    · exact hoperand h
  · rcases bind_eq_error h with h | ⟨kind, h⟩
    · exact isUnreadable_of_fetchKind h
    · cases h

/-- No handler can answer for code that cannot be read. -/
theorem isRecoverable_of_decode {bytes : Array UInt8} {offset : Nat} {fault : Fault}
    (h : Instruction.decode bytes offset = .error fault) : fault.isRecoverable = false := by
  have hunreadable := isUnreadable_of_decode h
  cases fault <;> simp [Fault.isUnreadable, Fault.isRecoverable] at hunreadable ⊢

theorem ends_fetch :
    Ends fetch m (fun _ m' => m.process.Fetches m'.process) fun fault _ => fault.isRecoverable = false := by
  unfold fetch Exec.frame
  simp only [ends_bind, ends_get]
  split
  · rename_i frame callers hframes
    simp only [ends_pure, ends_liftExcept]
    refine ⟨fun instruction hdecode => ?_, fun fault => isRecoverable_of_decode⟩
    simp only [note, ends_modify]
    unfold Ends updateFrame Machine.note
    simp only [hframes]
    refine ⟨rfl, rfl, rfl, frame, callers, _, hframes, rfl, ?_, add_length_le_of_decode hdecode⟩
    exact Nat.lt_add_of_pos_right instruction.length_pos
  · rfl

/-- The part of an instruction after it was read. -/
def execute (ctx : Context) : Instruction → Exec Unit
  | .pushSelf => updateFrame fun frame => frame.push frame.activation
  | .pushLiteral kind index => do push (← literal ctx kind index)
  | .pop => discard pop
  | .send kind count => send ctx kind count
  | .returnTop => returnTop ctx
  | .addSlot kind => addSlot ctx kind

theorem step_eq : step ctx = fetch >>= execute ctx := rfl

theorem turns_execute {fetched : Machine} {instruction : Instruction}
    (hfetch : fetch m = .ok instruction fetched) :
    Turns ctx (m.Restores ctx fetched.process.id) (execute ctx instruction) fetched := by
  cases instruction with
  | pushSelf =>
    refine Steady.turns (steady_updateFrame ?_)
    exact fun _ => rfl
  | pushLiteral kind index =>
    exact (steady_literal kind index).then fun _ _ _ _ => (steady_push _).turns
  | pop => exact (steady_pop.bind fun _ _ _ _ => .pure (P := fun _ _ => True) trivial).turns
  | send kind count =>
    rw [show execute ctx (.send kind count) = _ from send_eq kind count]
    have hsteady : Steady (message ctx kind count) fetched fun _ _ => True :=
      steady_message kind count
    unfold Turns
    rw [ends_bind]
    refine ends_iff.2 ⟨fun message sent hmessage => ?_, fun fault m' h _ => hsteady.of_error h⟩
    have hstay := (hsteady.of_ok hmessage).1
    have hdispatch : Turns ctx (m.Restores ctx fetched.process.id)
        (dispatch ctx message.receiver message.selector message.parent message.args) sent := by
      refine turns_dispatch
        fun k holder value token arg index hblock hresolve hnative hargs htoken => ?_
      have hk : k.process = sent.process := ((steady_resolve _ _ _).of_ok hresolve).2
      rw [hk, hstay.id_eq] at htoken
      refine ⟨token, arg, k, ?_, htoken⟩
      simp [Machine.invoked?, Machine.native?, hfetch, hmessage, hblock, hresolve, hnative, hargs]
    refine Ends.mono hdispatch (fun _ m' hm => ?_) fun fault m' h hfault => hstay.trans (h hfault)
    obtain ⟨settled, hsettled, hturn⟩ := hm
    exact ⟨settled, hstay.trans hsettled, hturn⟩
  | returnTop => exact turns_returnTop
  | addSlot kind => exact (steady_addSlot kind).turns

end Exec

namespace Machine

open Exec

/-- What one instruction makes of its process, with whatever follows from its failure. -/
theorem moves_advance (ctx : Context) (m : Machine) :
    m.process.Moves ctx.maxFrames (m.Restores ctx m.process.id) (m.advance ctx).process := by
  unfold advance
  cases hfetch : fetch m with
  | error fault failed =>
    have hfault := ends_fetch.of_error hfetch
    rw [step_eq, bind_of_error hfetch]
    simp only [fail, hfault, Bool.false_eq_true, if_false]
    exact .stop (isFinished_terminate fault failed)
  | ok instruction fetched =>
    have hfetched := ends_fetch.of_ok hfetch
    have hexecute : Turns ctx (m.Restores ctx fetched.process.id) (execute ctx instruction) fetched :=
      turns_execute hfetch
    rw [hfetched.id_eq] at hexecute
    rw [step_eq, bind_of_ok hfetch]
    cases hstep : execute ctx instruction fetched with
    | ok _ m' =>
      obtain ⟨settled, hstay, hturn⟩ := hexecute.of_ok hstep
      exact .go hfetched hstay hturn
    | error fault failed =>
      have hfail := hexecute.of_error hstep
      have hreport : Turns ctx (m.Restores ctx m.process.id)
          (do let message ← onHeap (ctx.roots.newString fault.message)
              raise ctx message (some fault)) failed :=
        (steady_onHeap _).then fun message _ _ _ => turns_raise message (some fault)
      simp only [fail]
      split
      · rename_i hrecoverable
        split
        · obtain ⟨settled, hstay, hturn⟩ := hreport.of_ok ‹_›
          exact .go hfetched ((hfail hrecoverable).trans hstay) hturn
        · exact .stop (isFinished_terminate _ _)
      · exact .stop (isFinished_terminate _ _)

end Machine

end ProtoVm
