import ProtoVm.Proofs.SessionSafety

/-!
# Activations stay in their calls

An activation gets onto the operand stack of its own call and nowhere else, as long as the user stores
none. Whatever leaves a call was replaced by the receiver of the call, and that receiver is no activation
itself, so that replacing once is enough.
-/

namespace ProtoVm

/-- The value is the record of a call. -/
def Heap.isActivation (heap : Heap) (value : Value) : Bool := (heap.object? value).any (·.isActivation)

theorem Object.isActivation_eq_isSome (object : Object) :
    object.isActivation = object.payload.receiver?.isSome := by
  rcases object with ⟨shape, slots, parents, scope, payload⟩
  cases payload <;> rfl

namespace Heap

variable {policy : Policy} {roots : Roots} {heap : Heap} {frames : List Frame}

theorem isActivation_ref (heap : Heap) (id : ObjectId) :
    heap.isActivation (.ref id) = (heap.object id).payload.receiver?.isSome :=
  (heap.object id).isActivation_eq_isSome

/-- Only activations stand for something else. -/
theorem effective_of_isActivation_eq_false {value : Value} (h : heap.isActivation value = false) :
    heap.effective value = value := by
  cases value with
  | fixnum n => rfl
  | ref id =>
    rw [isActivation_ref, Option.isSome_eq_false_iff, Option.isNone_iff_eq_none] at h
    rw [effective_ref, h, Option.getD_none]

theorem Accepts.isActivation_eq_false {value : Value} (h : heap.Accepts policy frames value)
    (hstrict : policy.strict) : heap.isActivation value = false := by
  unfold Heap.isActivation
  cases hobject : heap.object? value with
  | none => rfl
  | some object => exact h.plain hstrict object hobject

/-- The receiver that stands for an activation is in the activation, where no activation is stored. -/
theorem Sound.isActivation_effective (hs : heap.Sound policy roots frames) (hstrict : policy.strict)
    (value : Value) : heap.isActivation (heap.effective value) = false := by
  cases value with
  | fixnum n => rfl
  | ref id =>
    rw [effective_ref]
    cases hreceiver : (heap.object id).payload.receiver? with
    | none =>
      rw [Option.getD_none, isActivation_ref, hreceiver]
      rfl
    | some receiver =>
      have hheld : receiver ∈ (heap.object id).held := by simp [Object.held, hreceiver]
      exact (hs.held_accepts id hheld).isActivation_eq_false hstrict

end Heap

/-- No place in which a value can outlast a call holds an activation. -/
structure Scheduler.Confined (s : Scheduler) : Prop where
  slot : ∀ id object, s.heap.get? id = some object → ∀ value ∈ object.slotValues, s.heap.isActivation value = false
  parent : ∀ id object, s.heap.get? id = some object → ∀ value ∈ object.parentValues,
    s.heap.isActivation value = false
  called : ∀ id object receiver, s.heap.get? id = some object → object.payload = .activation receiver →
    s.heap.isActivation receiver = false
  receiver : ∀ process ∈ s.pool, ∀ frame ∈ process.allFrames, s.heap.isActivation frame.receiver = false
  handler : ∀ process ∈ s.pool, ∀ frame ∈ process.allFrames, ∀ block, frame.handler = some block →
    s.heap.isActivation block = false
  error : ∀ process ∈ s.pool, ∀ frame ∈ process.allFrames, ∀ error, frame.kind = .handler error →
    s.heap.isActivation error = false
  result : ∀ (id : ProcessId) (outcome : Outcome), s.outcomes[id]? = some (some outcome) →
    s.heap.isActivation outcome.result = false
  ending : ∀ process ∈ s.pool, ∀ outcome, process.outcome = some outcome →
    s.heap.isActivation outcome.result = false
  /-- The one activation among the operands of a call is its own. -/
  operand : ∀ process ∈ s.pool, ∀ frame ∈ process.allFrames, ∀ value ∈ frame.stack,
    s.heap.isActivation value = true → value = frame.activation
  /-- Replacing an activation by its receiver once is enough. -/
  effective : ∀ value, s.heap.isActivation (s.heap.effective value) = false ∧
    s.heap.effective (s.heap.effective value) = s.heap.effective value

namespace Session

variable {w : Session}

/-- As long as the user stores no activation, no program lets one escape. -/
theorem confined (hw : w.Reachable True) : w.scheduler.Confined := by
  have hs := hw.sound
  have hstrict : (w.policy True).strict := trivial
  have hheld {id : ObjectId} {object : Object} (hget : w.heap.get? id = some object) {value : Value}
      (hvalue : value ∈ object.held) : w.heap.isActivation value = false :=
    ((hs.heap.objects id object hget).held value hvalue).isActivation_eq_false hstrict
  have hframe {process : Process} (hp : process ∈ w.scheduler.pool) {frame : Frame}
      (hf : frame ∈ process.allFrames) {value : Value} (hvalue : value ∈ frame.held) :
      w.heap.isActivation value = false :=
    ((hs.frame hp hf).held value hvalue).isActivation_eq_false hstrict
  constructor
  case slot => exact fun id object hget value hvalue => hheld hget (by simp [Object.held, hvalue])
  case parent => exact fun id object hget value hvalue => hheld hget (by simp [Object.held, hvalue])
  case called =>
    exact fun id object receiver hget hpayload => hheld hget (by simp [Object.held, hpayload, Payload.receiver?])
  case receiver => exact fun process hp frame hf => hframe hp hf (by simp [Frame.held])
  case handler => exact fun process hp frame hf block hblock => hframe hp hf (by simp [Frame.held, hblock])
  case error =>
    exact fun process hp frame hf error hkind => hframe hp hf (by simp [Frame.held, hkind, FrameKind.error?])
  case result =>
    exact fun id outcome houtcome => (hs.results id outcome houtcome).isActivation_eq_false hstrict
  case ending =>
    exact fun process hp outcome houtcome =>
      (hs.pooled process hp outcome houtcome).isActivation_eq_false hstrict
  case operand =>
    intro process hp frame hf value hvalue hactivation
    rcases (hs.frame hp hf).stack value hvalue with heq | haccepts
    · exact heq
    · rw [haccepts.isActivation_eq_false hstrict] at hactivation
      cases hactivation
  case effective =>
    intro value
    have heffective := hs.heap.isActivation_effective hstrict value
    exact ⟨heffective, Heap.effective_of_isActivation_eq_false heffective⟩

/-- A handler runs with its own activation among its operands. -/
theorem confined_trial :
    ∃ (w : Session) (process : Process) (frame : Frame), w.Reachable True ∧ process ∈ w.scheduler.pool ∧
      frame ∈ process.frames ∧ frame.activation ∈ frame.stack ∧ w.heap.isActivation frame.activation = true ∧
      w.scheduler.Confined := by
  have htrial : ((trial .resume 24).any fun w => w.scheduler.pool.any fun process =>
      process.frames.any fun frame => decide (frame.activation ∈ frame.stack) &&
        w.heap.isActivation frame.activation) = true := by
    decide +kernel
  obtain ⟨w, hw, hcheck⟩ := (Option.any_eq_true _ _).1 htrial
  obtain ⟨process, hprocess, hcheck⟩ := List.any_eq_true.1 hcheck
  obtain ⟨frame, hframe, hcheck⟩ := List.any_eq_true.1 hcheck
  rw [Bool.and_eq_true, decide_eq_true_eq] at hcheck
  have hreachable : w.Reachable True := reachable_of_trial hw
  exact ⟨w, process, frame, hreachable, hprocess, hframe, hcheck.1, hcheck.2, confined hreachable⟩

end Session

end ProtoVm
