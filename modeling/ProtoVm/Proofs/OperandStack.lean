import Mathlib.Algebra.BigOperators.Group.List.Basic
import Mathlib.Algebra.Order.Group.Int
import Mathlib.Algebra.Ring.Int.Defs
import ProtoVm.Code.Listing
import ProtoVm.Proofs.Resumption

/-!
# The height of operand stacks

How many operands a frame has is a matter of its code alone: it is the sum of what the instructions before
its place add and take. A frame that waits for the answer to a send has one less.
-/

namespace ProtoVm

namespace Instruction

/-- How many operands an instruction takes off the stack. -/
def takes : Instruction → Nat
  | pushSelf | pushLiteral .. | returnTop => 0
  | pop => 1
  | send kind count => 1 + (if kind.isResend then 1 else 0) + (kind.argCount count + 1)
  | addSlot _ => 3

/-- By how much an instruction changes the height of the stack, once it is answered. -/
def effect : Instruction → Int
  | pushSelf | pushLiteral .. => 1
  | pop => -1
  | send kind count => -(kind.argCount count + 1) - (if kind.isResend then 1 else 0)
  | returnTop => 0
  | addSlot _ => -2

end Instruction

namespace Code

/-- The instructions of a unit that begin before `ip`. -/
def before (code : Code) (ip : Nat) : List Instruction :=
  ((Instruction.stream code.bytes 0).1.filter (·.1 < ip)).map (·.2)

/-- The number of operands at `ip`, by the effects of the instructions before it. -/
def height (code : Code) (ip : Nat) : Int := ((code.before ip).map Instruction.effect).sum

/-- Wherever an instruction of the unit begins there are as many operands as it takes. -/
def Covers (code : Code) : Prop :=
  ∀ placed ∈ (Instruction.stream code.bytes 0).1, (placed.2.takes : Int) ≤ code.height placed.1

instance (code : Code) : Decidable code.Covers := inferInstanceAs (Decidable (∀ placed ∈ _, _))

/-- The places at which an instruction begins if the unit is read from its start. -/
inductive Place (code : Code) : Nat → Prop
  | start : Place code 0
  | next {ip : Nat} {i : Instruction} (h : Place code ip) (hdecode : Instruction.decode code.bytes ip = .ok i) :
      Place code (ip + i.length)

end Code

/-! ## Heights of code -/

namespace Instruction

theorem stream_of_decode {bytes : Array UInt8} {ip : Nat} {i : Instruction} (h : decode bytes ip = .ok i) :
    (stream bytes ip).1 = (ip, i) :: (stream bytes (ip + i.length)).1 := by
  have hlt : ip < bytes.size :=
    Nat.lt_of_lt_of_le (Nat.lt_add_of_pos_right i.length_pos) (Exec.add_length_le_of_decode h)
  rw [stream, if_pos hlt]
  simp only [h]

theorem le_of_mem_stream {bytes : Array UInt8} {ip : Nat} {placed : Placed}
    (h : placed ∈ (stream bytes ip).1) : ip ≤ placed.1 := by
  fun_induction stream bytes ip with
  | case1 ip hlt fault hdecode => cases h
  | case2 ip hlt i hdecode rest stop hrest ih =>
    rcases List.mem_cons.1 h with rfl | h
    · exact Nat.le_refl ip
    · have hle := ih (by rwa [hrest])
      omega
  | case3 ip hge => cases h

end Instruction

namespace Code

variable {code : Code} {ip : Nat} {i : Instruction}

/-- What was passed before `ip` is passed at the next place, the instruction at `ip` is new, and nothing
after it is passed. -/
theorem filter_next {all rest : List Placed} (h : all = all.filter (·.1 < ip) ++ (ip, i) :: rest)
    (hrest : ∀ placed ∈ rest, ip + i.length ≤ placed.1) :
    all.filter (·.1 < ip + i.length) = all.filter (·.1 < ip) ++ [(ip, i)] := by
  have hpos := i.length_pos
  have hbefore : (all.filter (·.1 < ip)).filter (·.1 < ip + i.length) = all.filter (·.1 < ip) := by
    refine List.filter_eq_self.2 fun placed hplaced => ?_
    have hlt := (List.mem_filter.1 hplaced).2
    simp only [decide_eq_true_eq] at hlt ⊢
    omega
  have hafter : rest.filter (·.1 < ip + i.length) = [] := by
    refine List.filter_eq_nil_iff.2 fun placed hplaced => ?_
    have hle := hrest placed hplaced
    simp only [decide_eq_true_eq]
    omega
  conv_lhs => rw [h]
  rw [List.filter_append, hbefore, List.filter_cons_of_pos (by simpa using hpos), hafter]

/-- Reading from the start comes past every place. -/
theorem Place.stream_eq (h : code.Place ip) :
    (Instruction.stream code.bytes 0).1 =
      (Instruction.stream code.bytes 0).1.filter (·.1 < ip) ++ (Instruction.stream code.bytes ip).1 := by
  induction h with
  | start => simp
  | @next ip i h hdecode ih =>
    rw [Instruction.stream_of_decode hdecode] at ih
    rw [filter_next ih fun placed => Instruction.le_of_mem_stream, List.append_assoc]
    exact ih

theorem Place.mem_stream (h : code.Place ip) (hdecode : Instruction.decode code.bytes ip = .ok i) :
    (ip, i) ∈ (Instruction.stream code.bytes 0).1 := by
  rw [h.stream_eq, Instruction.stream_of_decode hdecode]
  simp

theorem Place.before_next (h : code.Place ip) (hdecode : Instruction.decode code.bytes ip = .ok i) :
    code.before (ip + i.length) = code.before ip ++ [i] := by
  have hstream := h.stream_eq
  rw [Instruction.stream_of_decode hdecode] at hstream
  unfold before
  rw [filter_next hstream fun placed => Instruction.le_of_mem_stream, List.map_append]
  rfl

theorem before_zero (code : Code) : code.before 0 = [] := by
  simp [before]

theorem Place.height_next (h : code.Place ip) (hdecode : Instruction.decode code.bytes ip = .ok i) :
    code.height (ip + i.length) = code.height ip + i.effect := by
  unfold height
  rw [h.before_next hdecode, List.map_append, List.sum_append]
  simp

theorem height_zero (code : Code) : code.height 0 = 0 := by
  simp [height, before_zero]

end Code

/-! ## Heights of stacks -/

/-- The frame is at a place of its code and has `d` operands less than the code says. -/
structure Frame.Lacks (d : Int) (frame : Frame) : Prop where
  place : frame.body.code.Place frame.ip
  length_eq : (frame.stack.length : Int) = frame.body.code.height frame.ip - d

namespace Process

/-- The process goes on and its innermost frame lacks `d` operands. Every other frame, running or parked, waits
for the answer to a send. -/
structure Lacks (d : Int) (process : Process) : Prop where
  going : process.outcome = none
  running : ∃ top callers, process.frames = top :: callers ∧ top.Lacks d ∧ ∀ caller ∈ callers, caller.Lacks 1
  parked : ∀ stack, some stack ∈ process.parked → stack ≠ [] ∧ ∀ frame ∈ stack, frame.Lacks 1

/-- The process has ended, and not for want of operands. -/
def Ended (process : Process) : Prop :=
  ∃ outcome, process.outcome = some outcome ∧ outcome.cause? ≠ some .stackUnderflow

/-- The process has ended, or nothing is missing in its innermost frame. -/
def Level (process : Process) : Prop := process.Ended ∨ process.Lacks 0

/-- The number of operands in the innermost frame. -/
def operands (process : Process) : Nat := (process.frames.head?.map (·.stack.length)).getD 0

variable {d : Int} {process : Process}

theorem Lacks.waiting (h : process.Lacks 1) :
    process.frames ≠ [] ∧ ∀ frame ∈ process.frames, frame.Lacks 1 := by
  obtain ⟨top, callers, hframes, htop, hcallers⟩ := h.running
  rw [hframes]
  exact ⟨List.cons_ne_nil _ _, List.forall_mem_cons.2 ⟨htop, hcallers⟩⟩

theorem lacks_of_waiting (process : Process) {frames : List Frame} {parked : List (Option (List Frame))}
    (hgoing : process.outcome = none) (hframes : frames ≠ [] ∧ ∀ frame ∈ frames, frame.Lacks 1)
    (hparked : ∀ stack, some stack ∈ parked → stack ≠ [] ∧ ∀ frame ∈ stack, frame.Lacks 1) :
    Lacks 1 { process with frames, parked } := by
  obtain ⟨top, callers, rfl⟩ := List.exists_cons_of_ne_nil hframes.1
  obtain ⟨htop, hcallers⟩ := List.forall_mem_cons.1 hframes.2
  exact ⟨hgoing, ⟨top, callers, rfl, htop, hcallers⟩, hparked⟩

/-- A new frame lacks nothing. -/
theorem level_call (process : Process) {frames : List Frame} {parked : List (Option (List Frame))} {frame : Frame}
    (hgoing : process.outcome = none) (hip : frame.ip = 0) (hstack : frame.stack = [])
    (hframes : ∀ caller ∈ frames, caller.Lacks 1)
    (hparked : ∀ stack, some stack ∈ parked → stack ≠ [] ∧ ∀ frame ∈ stack, frame.Lacks 1) :
    Level { process with frames := frame :: frames, parked } := by
  refine .inr ⟨hgoing, ⟨frame, frames, rfl, ⟨?_, ?_⟩, hframes⟩, hparked⟩
  · rw [hip]
    exact .start
  · rw [hip, hstack, Code.height_zero]
    rfl

theorem level_start (id : ProcessId) (body : Body) (lobby : Value) : (start id body lobby).Level :=
  level_call { id, frames := [] } rfl rfl rfl (by simp) (by simp)

theorem Level.lacks (h : process.Level) (hgoing : process.isFinished = false) : process.Lacks 0 := by
  rcases h with ⟨outcome, houtcome, -⟩ | h
  · simp [isFinished, houtcome] at hgoing
  · exact h

end Process

/-! ## Operations of the machine -/

namespace Exec

/-- The operation takes `n` operands off the stack. It runs out of them only if there are fewer, and no handler
can answer for it. -/
def Draws {α : Type} (n : Nat) (x : Exec α) (m : Machine) : Prop :=
  ∀ d, m.process.Lacks d → Ends x m
    (fun _ m' => m'.process.Lacks (d + n) ∧ m'.process.operands + n = m.process.operands)
    fun fault _ => fault.isRecoverable = false ∧ (fault = .stackUnderflow → m.process.operands < n)

/-- The send that waits still waits after the operation. -/
def Waits {α : Type} (x : Exec α) (m : Machine) : Prop :=
  m.process.Lacks 1 →
    Ends x m (fun _ m' => m'.process.Lacks 1) fun fault m' => fault ≠ .stackUnderflow ∧ m'.process.Lacks 1

/-- The operation answers the send that waits or takes its process elsewhere. After a fault that a handler can
answer the send still waits. -/
def Answers {α : Type} (x : Exec α) (m : Machine) : Prop :=
  m.process.Lacks 1 →
    Ends x m (fun _ m' => m'.process.Level)
      fun fault m' => fault ≠ .stackUnderflow ∧ (fault.isRecoverable = true → m'.process.Lacks 1)

section

variable {α β : Type} {x : Exec α} {f : α → Exec β} {m : Machine} {n k : Nat}

theorem Draws.bind (h : Draws n x m) (hf : ∀ a m', Draws k (f a) m') : Draws (n + k) (x >>= f) m := by
  intro d hd
  rw [ends_bind]
  refine (h d hd).mono (fun a m' ha => ?_) fun fault _ hfault => ⟨hfault.1, fun heq => ?_⟩
  · refine (hf a m' _ ha.1).mono (fun b m'' hb => ⟨?_, ?_⟩) fun fault _ hfault => ⟨hfault.1, fun heq => ?_⟩
    · rw [Int.natCast_add, ← Int.add_assoc]
      exact hb.1
    · have := ha.2
      have := hb.2
      omega
    · have := ha.2
      have := hfault.2 heq
      omega
  · have := hfault.2 heq
    omega

theorem Draws.pure (a : α) : Draws 0 (pure a) m := fun d hd => ⟨by simpa using hd, rfl⟩

theorem Draws.throw {fault : Fault} (h : fault.isRecoverable = false) (hfault : fault ≠ .stackUnderflow) :
    Draws 0 (throw fault : Exec α) m := fun _ _ => ⟨h, fun heq => absurd heq hfault⟩

theorem Draws.get {f : Machine → Exec α} (h : Draws n (f m) m) : Draws n (MonadState.get >>= f) m := h

theorem Waits.pure (a : α) : Waits (pure a) m := fun h => h

theorem Waits.throw {fault : Fault} (h : fault ≠ .stackUnderflow) : Waits (throw fault : Exec α) m :=
  fun hm => ⟨h, hm⟩

theorem Waits.get {f : Machine → Exec α} (h : Waits (f m) m) : Waits (MonadState.get >>= f) m := h

theorem Waits.bind (h : Waits x m) (hf : ∀ a m', Waits (f a) m') : Waits (x >>= f) m := by
  intro hm
  rw [ends_bind]
  exact (h hm).mono (fun a m' ha => hf a m' ha) fun _ _ h => h

theorem Waits.answers (h : Waits x m) (hf : ∀ a m', Answers (f a) m') : Answers (x >>= f) m := by
  intro hm
  rw [ends_bind]
  exact (h hm).mono (fun a m' ha => hf a m' ha) fun _ _ h => ⟨h.1, fun _ => h.2⟩

theorem Answers.throw {fault : Fault} (h : fault ≠ .stackUnderflow) : Answers (throw fault : Exec α) m :=
  fun hm => ⟨h, fun _ => hm⟩

theorem Answers.get {f : Machine → Exec α} (h : Answers (f m) m) : Answers (MonadState.get >>= f) m := h

/-- What a process that ends leaves behind does not matter. -/
theorem Answers.stop {edit : Machine → Machine} (h : (edit m).process.Ended) :
    Answers (modify edit) m := fun _ => .inl h

end

variable {m : Machine} {ctx : Context}

/-- Nothing that is done to the heap fails for want of operands. -/
theorem waits_onHeap {α : Type} {y : HeapM α} (h : (Heap.Rule.acts (fun _ => True) []).Governs y m.heap) :
    Waits (onHeap y) m := by
  intro hm
  exact ends_onHeap.2 (h.mono (fun _ _ _ => hm) fun _ _ h => ⟨Fault.ne_stackUnderflow_of_isOperational h.1, hm⟩)

theorem waits_note (event : ProcessId → Event) : Waits (note event) m := fun hm => hm

/-- The innermost frame gets other operands. -/
theorem ends_updateFrame {edit : Frame → Frame} {d d' : Int} {E : Fault → Machine → Prop}
    (hm : m.process.Lacks d) (hplace : ∀ frame, (edit frame).place = frame.place)
    (hlength : ∀ frame callers, m.process.frames = frame :: callers →
      ((edit frame).stack.length : Int) + d' = frame.stack.length + d) :
    Ends (updateFrame edit) m (fun _ m' => m'.process.Lacks d') E := by
  obtain ⟨top, callers, hframes, htop, hcallers⟩ := hm.running
  unfold Ends updateFrame
  simp only [hframes]
  have hedit := hplace top
  rw [Frame.place, Frame.place, Prod.mk.injEq] at hedit
  refine ⟨hm.going, ⟨edit top, callers, rfl, ⟨?_, ?_⟩, hcallers⟩, hm.parked⟩
  · rw [hedit.1, hedit.2]
    exact htop.place
  · have hlength := hlength top callers hframes
    have htop := htop.length_eq
    rw [hedit.1, hedit.2]
    omega

theorem answers_updateFrame {edit : Frame → Frame} (hplace : ∀ frame, (edit frame).place = frame.place)
    (hlength : ∀ frame, (edit frame).stack.length = frame.stack.length + 1) : Answers (updateFrame edit) m := by
  intro hm
  have hlacks : Ends (updateFrame edit) m (fun _ m' => m'.process.Lacks 0) fun _ _ => False := by
    refine ends_updateFrame hm hplace fun frame callers _ => ?_
    rw [hlength]
    omega
  exact hlacks.mono (fun _ _ h => .inr h) fun _ _ h => h.elim

theorem answers_push (value : Value) : Answers (push value) m :=
  answers_updateFrame (fun _ => rfl) fun _ => rfl

theorem Waits.frame {α : Type} {f : Frame → Exec α} (h : ∀ frame, Waits (f frame) m) :
    Waits (Exec.frame >>= f) m := by
  intro hm
  obtain ⟨top, callers, hframes, -⟩ := hm.running
  unfold Exec.frame
  simp only [ends_bind, ends_get, hframes, ends_pure]
  exact h top hm

theorem operands_eq {top : Frame} {callers : List Frame} (hframes : m.process.frames = top :: callers) :
    m.process.operands = top.stack.length := by
  simp [Process.operands, hframes]

theorem Draws.frame {α : Type} {n : Nat} {f : Frame → Exec α}
    (h : ∀ top callers, m.process.frames = top :: callers → Draws n (f top) m) :
    Draws n (Exec.frame >>= f) m := by
  intro d hd
  obtain ⟨top, callers, hframes, -⟩ := hd.running
  unfold Exec.frame
  simp only [ends_bind, ends_get, hframes, ends_pure]
  exact h top callers hframes d hd

/-- The `n` operands on top of the innermost stack are taken off. -/
theorem draws_updateFrame {α : Type} {n : Nat} {top : Frame} {callers : List Frame} {stack : List Value}
    (hframes : m.process.frames = top :: callers) (hlength : stack.length + n = top.stack.length) (a : α) :
    Draws n (do updateFrame ({ · with stack }); return a) m := by
  intro d hd
  obtain ⟨found, callers', hframes', htop, hcallers⟩ := hd.running
  obtain ⟨rfl, rfl⟩ := List.cons_eq_cons.1 (hframes.symm.trans hframes')
  rw [ends_bind]
  unfold Ends updateFrame
  simp only [hframes]
  refine ⟨⟨hd.going, ⟨{ top with stack }, callers, rfl, ⟨htop.place, ?_⟩, hcallers⟩, hd.parked⟩, ?_⟩
  · have := htop.length_eq
    change (stack.length : Int) = top.body.code.height top.ip - (d + n)
    omega
  · rw [operands_eq hframes]
    exact hlength

theorem draws_underflow {α : Type} {n : Nat} (h : m.process.operands < n) :
    Draws n (throw .stackUnderflow : Exec α) m := fun _ _ => ⟨rfl, fun _ => h⟩

theorem draws_pop : Draws 1 pop m := by
  refine .frame fun top callers hframes => ?_
  split
  · rename_i value stack hstack
    exact draws_updateFrame hframes (by simp [hstack]) value
  · rename_i hstack
    exact draws_underflow (by simp [operands_eq hframes, hstack])

theorem draws_popOperands (argc : Nat) : Draws (argc + 1) (popOperands argc) m := by
  refine .frame fun top callers hframes => ?_
  have hdrop : (top.stack.drop argc).length = top.stack.length - argc := List.length_drop
  split
  · rename_i receiver stack hstack
    rw [hstack, List.length_cons] at hdrop
    exact draws_updateFrame hframes (by omega) _
  · rename_i hstack
    rw [hstack, List.length_nil] at hdrop
    exact draws_underflow (by rw [operands_eq hframes]; omega)

theorem draws_name (value : Value) : Draws 0 (name ctx value) m := by
  refine .get ?_
  simp only
  split
  · exact .pure _
  · exact .throw rfl nofun

theorem draws_names (value : Option Value) : Draws 0 (value.mapM (name ctx)) m := by
  cases value with
  | none => exact .pure _
  | some value => exact (draws_name value).bind fun _ _ => .pure _

theorem draws_note (event : ProcessId → Event) : Draws 0 (note event) m := by
  intro d hd
  rw [Int.natCast_zero, Int.add_zero]
  exact ⟨hd, rfl⟩

/-- The receiver and the arguments of a message, once its names are off the stack. -/
theorem draws_operands (argc : Nat) (selector : Value) (parent : Option Value) :
    Draws (argc + 1)
      (do let (receiver, args) ← popOperands argc
          let selector ← name ctx selector
          let parent ← parent.mapM (name ctx)
          note (.sent · selector receiver)
          return (⟨receiver, selector, parent, args⟩ : Message)) m :=
  (draws_popOperands _).bind (k := 0) fun _ _ => (draws_name selector).bind fun _ _ => (draws_names parent).bind
    fun _ _ => (draws_note _).bind fun _ _ => .pure _

theorem draws_message (kind : SendKind) (count : UInt8) :
    Draws (Instruction.send kind count).takes (message ctx kind count) m := by
  have htakes : (Instruction.send kind count).takes =
      1 + ((if kind.isResend then 1 else 0) + (kind.argCount count + 1)) := Nat.add_assoc _ _ _
  rw [htakes]
  refine draws_pop.bind fun selector m' => ?_
  simp only
  split
  · refine Draws.bind (n := 1) ?_ fun parent _ => draws_operands _ selector parent
    exact draws_pop.bind (k := 0) fun _ _ => .pure _
  · rw [Nat.zero_add]
    exact draws_operands _ selector none

/-! ## Calls -/

/-- The process gets a new frame without operands, or a fault that no handler can answer. -/
def Calls (x : Exec Unit) (m : Machine) : Prop :=
  Ends x m
    (fun _ m' => ∃ frame : Frame, frame.ip = 0 ∧ frame.stack = [] ∧
      m'.process = { m.process with frames := frame :: m.process.frames })
    fun fault _ => fault ≠ .stackUnderflow ∧ fault.isRecoverable = false

theorem calls_activate (object : ObjectId) (method : Method) (selector : String) (receiver lexical : Value)
    (args : List Value) (kind : FrameKind) :
    Calls (activate ctx object method selector receiver lexical args kind) m := by
  unfold activate Calls
  split
  · exact ⟨by simp, rfl⟩
  · simp only [ends_bind, ends_get]
    split
    · exact ⟨by simp, rfl⟩
    · rw [ends_bind, ends_onHeap]
      refine ends_iff.2 ⟨fun records heap _ => ⟨_, rfl, rfl, rfl⟩, fun fault heap h => ?_⟩
      have hfault := Heap.newRecords_fault h
      exact ⟨Fault.ne_stackUnderflow_of_isOperational hfault, Fault.isRecoverable_of_isOperational hfault⟩

theorem calls_callBlock (block : ObjectId) (selector : String) (args : List Value) (kind : FrameKind) :
    Calls (callBlock ctx block selector args kind) m := by
  unfold callBlock Calls
  simp only [ends_bind, ends_get]
  split
  · exact ⟨by simp, rfl⟩
  · exact calls_activate _ _ _ _ _ _ _

theorem Calls.answers {x : Exec Unit} (h : Calls x m) : Answers x m := by
  intro hm
  refine h.mono (fun _ m' hm' => ?_) fun fault _ hfault => ⟨hfault.1, fun hrecoverable => ?_⟩
  · obtain ⟨frame, hip, hstack, heq⟩ := hm'
    rw [heq]
    exact Process.level_call m.process hm.going hip hstack hm.waiting.2 hm.parked
  · rw [hfault.2] at hrecoverable
    cases hrecoverable

/-- The caller gets the value for which it waits. -/
theorem returnTop_level (hm : m.process.Lacks 0) :
    Ends (returnTop ctx) m (fun _ m' => m'.process.Level)
      fun fault m' => fault ≠ .stackUnderflow ∧ (fault.isRecoverable = true → m'.process.Lacks 1) := by
  obtain ⟨top, callers, hframes, -, hcallers⟩ := hm.running
  unfold returnTop Exec.frame
  simp only [ends_bind, ends_get, hframes, ends_pure]
  split
  · exact .inl ⟨_, rfl, by simp [Outcome.cause?]⟩
  · simp only [leave, effective, hframes, ends_bind, ends_get, ends_pure, ends_modify]
    cases callers with
    | nil => exact .inl ⟨_, rfl, by simp [Outcome.cause?]⟩
    | cons caller callers =>
      refine answers_push _ ?_
      exact Process.lacks_of_waiting m.process hm.going ⟨List.cons_ne_nil _ _, hcallers⟩ hm.parked

/-! ## Errors -/

theorem answers_raise (value : Value) {cause : Option Fault} (hcause : cause ≠ some .stackUnderflow) :
    Answers (raise ctx value cause) m := by
  intro hm
  unfold raise
  simp only [ends_bind, ends_get]
  split
  · simp only [ends_bind, note, ends_modify]
    exact .inl ⟨_, rfl, hcause⟩
  · rename_i block hblock
    simp only [ends_bind, suspend, ends_modifyGet, Process.suspend, ends_onHeap]
    refine ends_iff.2 ⟨fun token heap _ => ?_, fun fault heap h => ?_⟩
    · simp only [note, ends_modify]
      refine (calls_callBlock _ _ _ _).mono (fun _ m' h => ?_) fun fault _ hfault => ⟨hfault.1, fun h => ?_⟩
      · obtain ⟨frame, hip, hstack, heq⟩ := h
        rw [heq]
        have hcallers : ∀ caller ∈ ([] : List Frame), caller.Lacks 1 := by simp
        refine Process.level_call m.process hm.going hip hstack hcallers fun stack hstack => ?_
        rcases List.mem_append.1 hstack with hold | hnew
        · exact hm.parked stack hold
        · cases List.mem_singleton.1 hnew
          exact hm.waiting
      · rw [hfault.2] at h
        cases h
    · rw [(Heap.allocate_error h).2]
      exact ⟨by simp, fun h => by cases h⟩

theorem answers_restore (token value : Value) : Answers (restore token value) m := by
  intro hm
  by_cases h : ∃ index frames, m.heap.token? token = some (m.process.id, index) ∧
      m.process.parked[index]? = some (some frames)
  · obtain ⟨index, frames, htoken, hparked⟩ := h
    unfold Ends
    rw [restore_of_token? htoken hparked]
    refine answers_push value ?_
    refine Process.lacks_of_waiting m.process hm.going (hm.parked frames (List.mem_of_getElem? hparked))
      fun stack hstack => ?_
    exact hm.parked stack ((List.mem_or_eq_of_mem_set hstack).resolve_right (Option.some_ne_none _))
  · unfold Ends
    rw [restore_of_ne fun index frames htoken hparked => h ⟨index, frames, htoken, hparked⟩]
    exact ⟨nofun, fun h => (nomatch h)⟩

/-! ## Sends -/

theorem answers_assign (holder : ObjectId) (selector : String) (receiver : Value) (args : List Value) :
    Answers (assign holder selector receiver args) m := by
  unfold assign
  split
  · refine .get (.get ?_)
    refine (waits_onHeap (Heap.Rule.setSlot _ (fun _ => trivial) _)).answers fun ok m' => ?_
    cases ok with
    | true => exact answers_push _
    | false => exact .throw nofun
  · exact .throw nofun

theorem answers_follow (reply : Reply) : Answers (follow ctx reply) m := by
  cases reply with
  | answer value => exact answers_push value
  | halt value => exact (waits_note _).answers fun _ _ => .stop ⟨_, rfl, nofun⟩
  | raise value => exact answers_raise value nofun
  | handler block =>
    refine answers_updateFrame ?_ ?_
    · exact fun _ => rfl
    · exact fun _ => rfl
  | restore token value => exact answers_restore token value

theorem answers_callNative (native : Native) (selector : String) (receiver : Value) (args : List Value) :
    Answers (callNative ctx native selector receiver args) m := by
  unfold callNative
  split
  · exact .throw nofun
  · rename_i hlength
    refine .get (.get ?_)
    refine (waits_onHeap (Heap.Rule.governs_native native _ ?_)).answers fun reply _ => answers_follow reply
    rw [List.length_map]
    exact not_not.1 hlength

theorem waits_lookup (value : Value) (name : String) : Waits (lookup ctx value name) m := fun hm => hm

theorem waits_resolve (receiver : Value) (selector : String) (parent : Option String) :
    Waits (resolve ctx receiver selector parent) m := by
  cases parent with
  | none => exact waits_lookup receiver selector
  | some parent =>
    refine .get ?_
    split
    · exact waits_lookup _ selector
    · exact .throw nofun
    · exact .throw nofun

theorem answers_apply (holder : ObjectId) (value receiver : Value) (selector : String) (args : List Value) :
    Answers (apply ctx holder value receiver selector args) m := by
  refine .get ?_
  split
  · exact answers_assign holder selector receiver args
  · exact answers_callNative _ selector receiver args
  · split
    · exact .get (answers_push _)
    · exact .get (calls_activate _ _ _ _ _ _ _).answers
  · exact .get (answers_push _)

theorem answers_dispatch (receiver : Value) (selector : String) (parent : Option String) (args : List Value) :
    Answers (dispatch ctx receiver selector parent args) m := by
  refine .get ?_
  simp only
  split
  · exact (calls_callBlock _ _ _ _).answers
  · refine (waits_resolve receiver selector parent).answers fun result m' => ?_
    cases result with
    | found holder value => exact answers_apply holder value receiver selector args
    | missing => exact .throw nofun
    | ambiguous first second => exact (waits_note _).answers fun _ _ => .throw nofun

/-! ## Literals and slots -/

theorem waits_instantiate (site : Site) (kind : ObjectKind) (params : List String) (code : Option Code) :
    Waits (instantiate site kind params code) m := by
  refine (waits_onHeap (Heap.Rule.governs_template trivial kind params)).bind fun template _ => .frame fun frame => ?_
  refine Waits.bind (fun hm => ?_) fun _ _ => (waits_onHeap (Heap.Rule.governs_instantiate _ _)).bind fun _ _ => .pure _
  exact ends_updateFrame hm (fun _ => rfl) fun _ _ _ => rfl

theorem Waits.lift {α β : Type} {y : Except Fault α} {f : α → Exec β}
    (herror : ∀ fault, y = .error fault → fault ≠ .stackUnderflow) (h : ∀ a, Waits (f a) m) :
    Waits (liftExcept y >>= f) m := by
  intro hm
  rw [ends_bind]
  exact ends_liftExcept.2 ⟨fun a _ => h a hm, fun fault hfault => ⟨herror fault hfault, hm⟩⟩

theorem waits_literal (kind : LiteralKind) (index : UInt8) : Waits (literal ctx kind index) m := by
  unfold literal
  split
  · exact .pure _
  · exact .pure _
  · refine .frame fun frame => .lift (fun fault h => ?_) fun l => ?_
    · obtain ⟨-, rfl⟩ := Code.literal_eq_error_iff.1 h
      exact nofun
    · simp only
      split
      · exact .throw nofun
      · split
        · split
          · exact .pure _
          · exact .throw nofun
        · exact waits_onHeap (Heap.Rule.governs_newFloat _)
        · exact waits_onHeap (Heap.Rule.governs_intern trivial _)
        · exact waits_instantiate _ _ _ _

/-- What is left of the addition of a slot once its operands are off the stack. -/
theorem answers_addTo (kind : SlotKind) (value slot target : Value) :
    Answers (do
      let slot ← name ctx slot
      match target with
      | .fixnum _ => throw (.typeMismatch .object .fixnum)
      | .ref id =>
        let value ← effective value
        onHeap <| modify fun heap => match kind with
          | .normal => heap.addSlot id slot value
          | .parent => heap.addParent id slot value
        push target) m := by
  have hname : Waits (name ctx slot) m := by
    refine .get ?_
    simp only
    split
    · exact .pure _
    · exact .throw nofun
  refine hname.answers fun slot m' => ?_
  split
  · exact .throw nofun
  · refine .get ((waits_onHeap (.modify ?_)).answers fun _ m'' => answers_push _)
    cases kind with
    | normal => exact (Heap.Rule.acts _ []).edit trivial _ (.addSlot _ _)
    | parent => exact (Heap.Rule.acts _ []).edit trivial _ (.addParent _ _)

/-! ## Instructions -/

/-- After the instruction nothing is missing. It runs out of operands only if there are fewer than it takes, and
after a fault that a handler can answer its send waits. -/
def Fills (n : Nat) (x : Exec Unit) (m : Machine) : Prop :=
  Ends x m (fun _ m' => m'.process.Level) fun fault m' =>
    (fault = .stackUnderflow → m.process.operands < n) ∧ (fault.isRecoverable = true → m'.process.Lacks 1)

theorem Answers.fills {x : Exec Unit} (h : Answers x m) (hm : m.process.Lacks 1) : Fills 0 x m :=
  (h hm).mono (fun _ _ h => h) fun _ _ hfault => ⟨fun heq => absurd heq hfault.1, hfault.2⟩

theorem Draws.fills {α : Type} {x : Exec α} {f : α → Exec Unit} {n k : Nat} (h : Draws n x m)
    (hf : ∀ a m', m'.process.Lacks (1 - k) → Fills k (f a) m') (hm : m.process.Lacks (1 - (n + k : Nat))) :
    Fills (n + k) (x >>= f) m := by
  unfold Fills
  rw [ends_bind]
  refine (h _ hm).mono (fun a m' ha => ?_) fun fault _ hfault => ⟨fun heq => ?_, fun hrecoverable => ?_⟩
  · obtain ⟨hlacks, hoperands⟩ := ha
    rw [show 1 - ((n + k : Nat) : Int) + n = 1 - k by omega] at hlacks
    refine (hf a m' hlacks).mono (fun _ _ h => h) fun fault _ hfault => ⟨fun heq => ?_, hfault.2⟩
    have := hfault.1 heq
    omega
  · have := hfault.2 heq
    omega
  · rw [hfault.1] at hrecoverable
    cases hrecoverable

theorem fills_execute (i : Instruction) (hm : m.process.Lacks i.effect) : Fills i.takes (execute ctx i) m := by
  cases i with
  | pushSelf =>
    refine (answers_updateFrame ?_ ?_).fills hm
    · exact fun _ => rfl
    · exact fun _ => rfl
  | pushLiteral kind index =>
    exact ((waits_literal kind index).answers fun _ _ => answers_push _).fills hm
  | pop =>
    refine Ends.mono (draws_pop.bind (k := 0) (fun _ _ => .pure PUnit.unit) _ hm) (fun _ m' h => .inr h.1)
      fun fault _ hfault => ⟨hfault.2, fun hrecoverable => ?_⟩
    rw [hfault.1] at hrecoverable
    cases hrecoverable
  | send kind count =>
    have heffect : (Instruction.send kind count).effect = 1 - ((Instruction.send kind count).takes : Int) := by
      simp only [Instruction.effect, Instruction.takes]
      split <;> push_cast <;> omega
    rw [heffect] at hm
    rw [show execute ctx (.send kind count) = _ from send_eq kind count]
    exact (draws_message kind count).fills (k := 0) (fun _ _ => (answers_dispatch _ _ _ _).fills) hm
  | returnTop =>
    exact (returnTop_level hm).mono (fun _ _ h => h) fun _ _ hfault => ⟨fun heq => absurd heq hfault.1, hfault.2⟩
  | addSlot kind =>
    exact draws_pop.fills (k := 2) (fun value _ => draws_pop.fills (k := 1) fun slot _ => draws_pop.fills (k := 0)
      fun target _ => (answers_addTo kind value slot target).fills) hm

end Exec

namespace Machine

open Exec

variable {m : Machine} {ctx : Context}

/-- The frame goes past the instruction and lacks what the instruction will add. -/
theorem fetch_lacks (hm : m.process.Lacks 0) :
    Ends fetch m
      (fun i m' => m'.process.Lacks i.effect ∧ m'.process.operands = m.process.operands ∧
        ∃ top callers, m.process.frames = top :: callers ∧ Instruction.decode top.body.code.bytes top.ip = .ok i)
      fun fault _ => fault ≠ .stackUnderflow := by
  obtain ⟨top, callers, hframes, htop, hcallers⟩ := hm.running
  unfold fetch Exec.frame
  simp only [ends_bind, ends_get, hframes, ends_pure, ends_liftExcept]
  refine ⟨fun i hdecode => ?_, fun fault hdecode => ?_⟩
  · simp only [Exec.note, ends_modify]
    unfold Ends updateFrame Machine.note
    simp only [hframes]
    refine ⟨⟨hm.going, ⟨_, callers, rfl, ⟨htop.place.next hdecode, ?_⟩, hcallers⟩, hm.parked⟩, ?_, top, callers, rfl, hdecode⟩
    · have := htop.length_eq
      have := htop.place.height_next hdecode
      change (top.stack.length : Int) = top.body.code.height (top.ip + i.length) - i.effect
      omega
    · simp [Process.operands, hframes]
  · rintro rfl
    exact absurd (isUnreadable_of_decode hdecode) Bool.false_ne_true

theorem level_terminate {fault : Fault} (h : fault ≠ .stackUnderflow) (m : Machine) :
    (m.terminate ctx fault).process.Level := by
  obtain ⟨result, display, houtcome⟩ : (m.terminate ctx fault).EndedBy fault := endedBy_terminate fault m
  exact .inl ⟨_, houtcome, fun heq => h (Option.some.inj heq)⟩

/-- A failed send is answered by the handler or ends its process. -/
theorem level_fail {fault : Fault} (hfault : fault ≠ .stackUnderflow)
    (hm : fault.isRecoverable = true → m.process.Lacks 1) : (m.fail ctx fault).process.Level := by
  simp only [fail]
  split
  · rename_i hrecoverable
    have hreport : Answers
        (do let message ← onHeap (ctx.roots.newString fault.message)
            raise ctx message (some fault)) m :=
      (waits_onHeap (Heap.Rule.governs_newString _)).answers fun message _ =>
        answers_raise message fun heq => hfault (Option.some.inj heq)
    split
    · exact (hreport (hm hrecoverable)).of_ok ‹_›
    · exact level_terminate ((hreport (hm hrecoverable)).of_error ‹_›).1 _
  · exact level_terminate hfault m

/-- One instruction leaves nothing missing, or its process ends because there were fewer operands than it
takes. -/
theorem advance_level (hm : m.process.Lacks 0) :
    (m.advance ctx).process.Level ∨
      (m.advance ctx).process.isFinished = true ∧ ∃ top callers i, m.process.frames = top :: callers ∧
        Instruction.decode top.body.code.bytes top.ip = .ok i ∧ top.stack.length < i.takes := by
  unfold advance
  cases hfetch : fetch m with
  | error fault failed =>
    have hfault := ends_fetch.of_error hfetch
    rw [step_eq, bind_of_error hfetch]
    simp only [fail, hfault, Bool.false_eq_true, if_false]
    exact .inl (level_terminate ((fetch_lacks hm).of_error hfetch) failed)
  | ok i fetched =>
    obtain ⟨hlacks, hoperands, top, callers, hframes, hdecode⟩ := (fetch_lacks hm).of_ok hfetch
    have hfills : Fills i.takes (execute ctx i) fetched := fills_execute i hlacks
    rw [step_eq, bind_of_ok hfetch]
    cases hstep : execute ctx i fetched with
    | ok _ m' => exact .inl (hfills.of_ok hstep)
    | error fault failed =>
      obtain ⟨hunderflow, hwaits⟩ := hfills.of_error hstep
      rw [hoperands, operands_eq hframes] at hunderflow
      by_cases hfault : fault = .stackUnderflow
      · rw [hfault] at hunderflow ⊢
        exact .inr ⟨isFinished_terminate _ _, top, callers, i, hframes, hdecode, hunderflow rfl⟩
      · exact .inl (level_fail hfault hwaits)

/-- A process that goes on after an instruction has all the operands its code says. -/
theorem advance_lacks (hm : m.process.Lacks 0) (hgoing : (m.advance ctx).process.isFinished = false) :
    (m.advance ctx).process.Lacks 0 := by
  rcases advance_level hm with h | ⟨hfinished, -⟩
  · exact h.lacks hgoing
  · rw [hfinished] at hgoing
    cases hgoing

end Machine

/-! ## Sessions -/

/-- What holds of a process when it starts and is kept by its instructions holds of every process that goes
on. -/
theorem Session.Reachable.going_invariant {P : Process → Prop} {plain : Prop} {w : Session} (hw : w.Reachable plain)
    (hstart : ∀ id body lobby, P (Process.start id body lobby))
    (hadvance : ∀ ctx (m : Machine), m.process.isFinished = false → P m.process →
      (m.advance ctx).process.isFinished = false → P (m.advance ctx).process) {process : Process}
    (hprocess : process ∈ w.scheduler.pool) (hgoing : process.isFinished = false) : P process := by
  have hcourse {ctx : Context} {m k : Machine} (h : Machine.Course ctx (fun _ => True) m k)
      (hm : m.process.isFinished = false → P m.process) : k.process.isFinished = false → P k.process := by
    induction h with
    | start => exact hm
    | own _ hgoing _ ih => exact hadvance ctx _ hgoing (ih hgoing)
    | others _ _ _ ih => exact ih
  induction hw generalizing process with
  | @start config maxObjects s h =>
    unfold Scheduler.create at h
    split at h
    · cases h
      cases hprocess
    · cases h
  | step hw h ih =>
    rcases h.continues hprocess with ⟨body, -, rfl⟩ | ⟨earlier, hearlier, hrun⟩
    · exact hstart _ _ _
    · exact hcourse hrun (ih hearlier) hgoing

namespace Session

variable {plain : Prop} {w : Session}

theorem Reachable.lacks (hw : w.Reachable plain) {process : Process} (hprocess : process ∈ w.scheduler.pool)
    (hgoing : process.isFinished = false) : process.Lacks 0 :=
  hw.going_invariant (fun id body lobby => (Process.level_start id body lobby).lacks rfl)
    (fun _ _ _ hm hgoing => Machine.advance_lacks hm hgoing) hprocess hgoing

/-- The number of operands in a frame is the height of its code where the frame stands, less one if the frame
waits for an answer. So a unit that covers what its instructions take never runs out of operands. -/
theorem operands_eq_height (hw : w.Reachable plain) {process : Process} (hprocess : process ∈ w.scheduler.pool)
    (hgoing : process.isFinished = false) :
    ∃ top callers, process.frames = top :: callers ∧
      (top.stack.length : Int) = top.body.code.height top.ip ∧
      (∀ frame ∈ callers, (frame.stack.length : Int) = frame.body.code.height frame.ip - 1) ∧
      (∀ stack, some stack ∈ process.parked → ∀ frame ∈ stack,
        (frame.stack.length : Int) = frame.body.code.height frame.ip - 1) ∧
      (top.body.code.Covers →
        ¬((w.scheduler.machine process).advance w.scheduler.context).EndedBy .stackUnderflow) := by
  have hlacks := hw.lacks hprocess hgoing
  obtain ⟨top, callers, hframes, htop, hcallers⟩ := hlacks.running
  have hheight : (top.stack.length : Int) = top.body.code.height top.ip := by
    rw [htop.length_eq, Int.sub_zero]
  refine ⟨top, callers, hframes, hheight, fun frame hframe => (hcallers frame hframe).length_eq,
    fun stack hstack frame hframe => ((hlacks.parked stack hstack).2 frame hframe).length_eq, ?_⟩
  rintro hcovers ⟨result, display, houtcome⟩
  have hlevel : ((w.scheduler.machine process).advance w.scheduler.context).process.Level ∨ _ :=
    Machine.advance_level hlacks
  rcases hlevel with (⟨outcome, hended, hcause⟩ | h) | ⟨-, top', callers', i, hframes', hdecode, hfew⟩
  · rw [houtcome] at hended
    cases hended
    exact hcause rfl
  · rw [h.going] at houtcome
    cases houtcome
  · obtain ⟨rfl, rfl⟩ := List.cons_eq_cons.1 (hframes.symm.trans hframes')
    have hcovered := hcovers _ (htop.place.mem_stream hdecode)
    simp only at hcovered
    omega

/-- A handler runs in a unit that covers what it takes, while the stack that it interrupted is parked. -/
theorem operands_eq_height_trial :
    ∃ (w : Session) (process : Process) (top : Frame), w.Reachable False ∧ process ∈ w.scheduler.pool ∧
      process.isFinished = false ∧ process.frames.head? = some top ∧ top.body.code.Covers ∧
      (∃ stack ∈ process.parked, stack.isSome) ∧
      (top.stack.length : Int) = top.body.code.height top.ip ∧
      ¬((w.scheduler.machine process).advance w.scheduler.context).EndedBy .stackUnderflow := by
  have htrial : ((trial .resume 24).any fun w => w.scheduler.pool.any fun process =>
      !process.isFinished && process.parked.any (·.isSome) &&
        process.frames.head?.any fun top => decide top.body.code.Covers) = true := by
    decide +kernel
  obtain ⟨w, hw, hcheck⟩ := (Option.any_eq_true _ _).1 htrial
  obtain ⟨process, hprocess, hcheck⟩ := List.any_eq_true.1 hcheck
  simp only [Bool.and_eq_true, Bool.not_eq_true', List.any_eq_true, Option.any_eq_true, decide_eq_true_eq] at hcheck
  obtain ⟨⟨hgoing, hparked⟩, top, htop, hcovers⟩ := hcheck
  have hreachable : w.Reachable False := reachable_of_trial hw
  obtain ⟨top', callers, hframes, hheight, -, -, hnever⟩ := operands_eq_height hreachable hprocess hgoing
  rw [hframes, List.head?_cons] at htop
  cases htop
  exact ⟨w, process, top, hreachable, hprocess, hgoing, by rw [hframes]; rfl, hcovers, hparked, hheight,
    hnever hcovers⟩

end Session

end ProtoVm
