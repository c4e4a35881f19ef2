import Mathlib.Logic.Function.Iterate
import ProtoVm.Proofs.Effects

/-!
# The journal

What happens is written in the journal and never read there. Two machines that differ at most in their journals do the
same, instruction by instruction.
-/

namespace ProtoVm

namespace Machine

/-- The machines differ at most in their journals. -/
structure Alike (m k : Machine) : Prop where
  heap : m.heap = k.heap
  process : m.process = k.process

variable {m k : Machine} {ctx : Context}

theorem alike_iff : m.Alike k ↔ ∃ journal, k = { m with journal } := by
  obtain ⟨heap, process, journal⟩ := k
  constructor
  · rintro ⟨rfl, rfl⟩
    exact ⟨journal, rfl⟩
  · rintro ⟨journal, h⟩
    cases h
    exact ⟨rfl, rfl⟩

end Machine

/-- Both operations end with the same result or the same fault, in machines that are alike. -/
def Alike {α : Type} : EStateM.Result Fault Machine α → EStateM.Result Fault Machine α → Prop
  | .ok a m, .ok b k => a = b ∧ m.Alike k
  | .error fault m, .error other k => fault = other ∧ m.Alike k
  | _, _ => False

namespace Exec

/-- The operation does the same whatever the journal says. -/
def Oblivious {α : Type} (x : Exec α) : Prop := ∀ m journal, Alike (x m) (x { m with journal })

section

variable {α β : Type} {x : Exec α}

theorem Oblivious.alike (h : Oblivious x) {m k : Machine} (hm : m.Alike k) : Alike (x m) (x k) := by
  obtain ⟨journal, rfl⟩ := Machine.alike_iff.1 hm
  exact h m journal

theorem oblivious_pure (a : α) : Oblivious (pure a : Exec α) := fun _ _ => ⟨rfl, rfl, rfl⟩

theorem oblivious_throw (fault : Fault) : Oblivious (throw fault : Exec α) := fun _ _ => ⟨rfl, rfl, rfl⟩

theorem Oblivious.bind {f : α → Exec β} (hx : Oblivious x) (hf : ∀ a, Oblivious (f a)) : Oblivious (x >>= f) := by
  intro m journal
  have h := hx m journal
  cases hm : x m with
  | ok a m' =>
    cases hk : x { m with journal } with
    | ok b k' =>
      rw [hm, hk] at h
      obtain ⟨rfl, halike⟩ := h
      rw [bind_of_ok hm, bind_of_ok hk]
      exact (hf a).alike halike
    | error fault k' =>
      rw [hm, hk] at h
      exact h.elim
  | error fault m' =>
    cases hk : x { m with journal } with
    | ok b k' =>
      rw [hm, hk] at h
      exact h.elim
    | error other k' =>
      rw [hm, hk] at h
      rw [bind_of_error hm, bind_of_error hk]
      exact h

theorem Oblivious.map (hx : Oblivious x) (f : α → β) : Oblivious (f <$> x) := by
  rw [map_eq_pure_bind]
  exact hx.bind fun _ => oblivious_pure _

/-- What is read of the machine is not its journal. -/
theorem oblivious_get {f : Machine → Exec α} (hf : ∀ m journal, f { m with journal } = f m)
    (h : ∀ m, Oblivious (f m)) : Oblivious (get >>= f) := by
  intro m journal
  rw [get_bind, get_bind, hf m journal]
  exact h m m journal

theorem oblivious_throw_bind (fault : Fault) (f : α → Exec β) : Oblivious (throw fault >>= f) :=
  fun _ _ => ⟨rfl, rfl, rfl⟩

theorem oblivious_modify {f : Machine → Machine} (hf : ∀ m journal, (f m).Alike (f { m with journal })) :
    Oblivious (modify f) := fun m journal => ⟨rfl, hf m journal⟩

theorem oblivious_liftExcept (result : Except Fault α) : Oblivious (liftExcept result) := by
  cases result <;> exact fun _ _ => ⟨rfl, rfl, rfl⟩

theorem oblivious_onHeap (action : HeapM α) : Oblivious (onHeap action) := by
  rintro ⟨heap, process, earlier⟩ journal
  unfold onHeap
  dsimp only
  cases action heap <;> exact ⟨rfl, rfl, rfl⟩

end

variable {ctx : Context}

/-! ## The parts of an instruction -/

theorem oblivious_note (event : ProcessId → Event) : Oblivious (note event) := oblivious_modify fun _ _ => ⟨rfl, rfl⟩

theorem oblivious_frame : Oblivious frame := by
  refine oblivious_get (fun _ _ => rfl) fun m => ?_
  split
  · exact oblivious_pure _
  · exact oblivious_throw _

theorem oblivious_updateFrame (edit : Frame → Frame) : Oblivious (updateFrame edit) := by
  intro m journal
  unfold updateFrame
  cases m.process.frames <;> exact ⟨rfl, rfl, rfl⟩

theorem oblivious_push (value : Value) : Oblivious (push value) := oblivious_updateFrame _

theorem oblivious_pop : Oblivious pop := by
  refine oblivious_frame.bind fun frame => ?_
  cases frame.stack with
  | nil => exact oblivious_throw _
  | cons value stack => exact (oblivious_updateFrame _).bind fun _ => oblivious_pure _

theorem oblivious_effective (value : Value) : Oblivious (effective value) :=
  oblivious_get (fun _ _ => rfl) fun _ => oblivious_pure _

theorem oblivious_lookup (value : Value) (name : String) : Oblivious (lookup ctx value name) :=
  fun _ _ => ⟨rfl, rfl, rfl⟩

theorem oblivious_name (value : Value) : Oblivious (name ctx value) := by
  refine oblivious_get (fun _ _ => rfl) fun m => ?_
  dsimp only
  split
  · exact oblivious_pure _
  · exact oblivious_throw _

theorem oblivious_suspend : Oblivious suspend := fun _ _ => ⟨rfl, rfl, rfl⟩

/-! ## Calls -/

theorem oblivious_activate (object : ObjectId) (method : Method) (selector : String) (receiver lexical : Value)
    (args : List Value) (kind : FrameKind) :
    Oblivious (activate ctx object method selector receiver lexical args kind) := by
  unfold activate
  split
  · exact oblivious_throw_bind _ _
  · refine oblivious_get (fun _ _ => rfl) fun m => ?_
    split
    · exact oblivious_throw_bind _ _
    · refine (oblivious_onHeap _).bind fun records => (oblivious_note _).bind fun _ => ?_
      exact oblivious_modify fun _ _ => ⟨rfl, rfl⟩

theorem oblivious_callBlock (block : ObjectId) (selector : String) (args : List Value) (kind : FrameKind) :
    Oblivious (callBlock ctx block selector args kind) := by
  refine oblivious_get (fun _ _ => rfl) fun m => ?_
  dsimp only
  split
  · exact oblivious_throw _
  · exact oblivious_activate _ _ _ _ _ _ _

theorem oblivious_leave : Oblivious leave := by
  refine oblivious_modify fun m journal => ?_
  cases m.process.frames <;> exact ⟨rfl, rfl⟩

theorem oblivious_finish (value : Value) : Oblivious (modify (·.finish ctx value)) :=
  oblivious_modify fun _ _ => ⟨rfl, rfl⟩

theorem oblivious_finishWithError (value : Value) (cause : Option Fault) :
    Oblivious (modify (·.finishWithError ctx value cause)) := oblivious_modify fun _ _ => ⟨rfl, rfl⟩

theorem oblivious_returnTop : Oblivious (returnTop ctx) := by
  refine oblivious_frame.bind fun frame => ?_
  split
  · exact oblivious_leave.bind fun _ => (oblivious_note _).bind fun _ => oblivious_finishWithError _ _
  · refine (oblivious_effective _).bind fun value => oblivious_leave.bind fun _ => ?_
    refine oblivious_get (fun _ _ => rfl) fun m => ?_
    split
    · exact oblivious_finish _
    · exact oblivious_push _

theorem oblivious_raise (value : Value) (cause : Option Fault) : Oblivious (raise ctx value cause) := by
  refine oblivious_get (fun _ _ => rfl) fun m => ?_
  dsimp only
  split
  · exact (oblivious_note _).bind fun _ => oblivious_finishWithError _ _
  · exact oblivious_suspend.bind fun _ => (oblivious_onHeap _).bind fun _ => (oblivious_note _).bind fun _ =>
      oblivious_callBlock _ _ _ _

theorem oblivious_restore (token value : Value) : Oblivious (restore token value) := by
  refine oblivious_get (fun _ _ => rfl) fun m => ?_
  dsimp only
  split
  · split
    · exact oblivious_throw_bind _ _
    · split
      · exact oblivious_throw _
      · refine (oblivious_note _).bind fun _ => Oblivious.bind ?_ fun _ => oblivious_push _
        exact oblivious_modify fun _ _ => ⟨rfl, rfl⟩
  · exact oblivious_throw _

/-! ## Sends -/

theorem oblivious_assign (holder : ObjectId) (selector : String) (receiver : Value) (args : List Value) :
    Oblivious (assign holder selector receiver args) := by
  unfold assign
  split
  · refine (oblivious_effective _).bind fun value => (oblivious_effective _).bind fun receiver =>
      (oblivious_onHeap _).bind fun stored => ?_
    split
    · exact oblivious_push _
    · exact oblivious_throw _
  · exact oblivious_throw _

theorem oblivious_follow (reply : Reply) : Oblivious (follow ctx reply) := by
  cases reply with
  | answer value => exact oblivious_push value
  | halt value => exact (oblivious_note _).bind fun _ => oblivious_finish value
  | raise value => exact oblivious_raise value none
  | handler block => exact oblivious_updateFrame _
  | restore token value => exact oblivious_restore token value

theorem oblivious_callNative (native : Native) (selector : String) (receiver : Value) (args : List Value) :
    Oblivious (callNative ctx native selector receiver args) := by
  unfold callNative
  split
  · exact oblivious_throw_bind _ _
  · refine (oblivious_effective _).bind fun receiver => ?_
    refine oblivious_get (fun _ _ => rfl) fun m => ?_
    exact (oblivious_onHeap _).bind fun reply => oblivious_follow reply

theorem oblivious_resolve (receiver : Value) (selector : String) (parent : Option String) :
    Oblivious (resolve ctx receiver selector parent) := by
  cases parent with
  | none => exact oblivious_lookup receiver selector
  | some parent =>
    refine oblivious_get (fun _ _ => rfl) fun m => ?_
    split
    · exact oblivious_lookup _ selector
    · exact oblivious_throw _
    · exact oblivious_throw _

theorem oblivious_apply (holder : ObjectId) (value receiver : Value) (selector : String) (args : List Value) :
    Oblivious (apply ctx holder value receiver selector args) := by
  refine oblivious_get (fun _ _ => rfl) fun m => ?_
  split
  · exact oblivious_assign holder selector receiver args
  · exact oblivious_callNative _ selector receiver args
  · split
    · exact (oblivious_effective _).bind fun _ => oblivious_push _
    · exact (oblivious_effective _).bind fun _ => oblivious_activate _ _ _ _ _ _ _
  · exact (oblivious_effective _).bind fun _ => oblivious_push _

theorem oblivious_dispatch (receiver : Value) (selector : String) (parent : Option String) (args : List Value) :
    Oblivious (dispatch ctx receiver selector parent args) := by
  refine oblivious_get (fun _ _ => rfl) fun m => ?_
  dsimp only
  generalize (if (parent.isNone && Selector.isBlockCall selector args.length) = true then m.heap.block? receiver
    else none) = called
  cases called with
  | some block => exact oblivious_callBlock block selector args .call
  | none =>
    refine (oblivious_resolve receiver selector parent).bind fun result => ?_
    cases result with
    | found holder value => exact oblivious_apply holder value receiver selector args
    | missing => exact oblivious_throw _
    | ambiguous first second => exact (oblivious_note _).bind fun _ => oblivious_throw _

theorem oblivious_popOperands (argc : Nat) : Oblivious (popOperands argc) := by
  refine oblivious_frame.bind fun frame => ?_
  split
  · exact (oblivious_updateFrame _).bind fun _ => oblivious_pure _
  · exact oblivious_throw _

theorem oblivious_send (kind : SendKind) (count : UInt8) : Oblivious (send ctx kind count) := by
  have hnames (parent : Option Value) : Oblivious (parent.mapM (name ctx)) := by
    cases parent with
    | none => exact oblivious_pure none
    | some parent => exact (oblivious_name parent).map some
  refine oblivious_pop.bind fun selector => ?_
  split
  · refine (oblivious_pop.map some).bind fun parent => (oblivious_popOperands _).bind fun operands => ?_
    exact (oblivious_name _).bind fun selector => (hnames parent).bind fun parent => (oblivious_note _).bind fun _ =>
      oblivious_dispatch _ _ _ _
  · refine (oblivious_pure none).bind fun parent => (oblivious_popOperands _).bind fun operands => ?_
    exact (oblivious_name _).bind fun selector => (hnames parent).bind fun parent => (oblivious_note _).bind fun _ =>
      oblivious_dispatch _ _ _ _

/-! ## Instructions -/

theorem oblivious_instantiate (site : Site) (kind : ObjectKind) (params : List String) (code : Option Code) :
    Oblivious (instantiate site kind params code) := by
  refine (oblivious_onHeap _).bind fun template => oblivious_frame.bind fun frame => ?_
  exact (oblivious_updateFrame _).bind fun _ => (oblivious_onHeap _).bind fun _ => oblivious_pure _

theorem oblivious_literal (kind : LiteralKind) (index : UInt8) : Oblivious (literal ctx kind index) := by
  unfold literal
  split
  · exact oblivious_pure _
  · exact oblivious_pure _
  · refine oblivious_frame.bind fun frame => (oblivious_liftExcept _).bind fun l => ?_
    dsimp only
    split
    · exact oblivious_throw_bind _ _
    · split
      · split
        · exact oblivious_pure _
        · exact oblivious_throw _
      · exact oblivious_onHeap _
      · exact oblivious_onHeap _
      · exact oblivious_instantiate _ _ _ _

theorem oblivious_addSlot (kind : SlotKind) : Oblivious (addSlot ctx kind) := by
  refine oblivious_pop.bind fun value => oblivious_pop.bind fun slot => oblivious_pop.bind fun target => ?_
  refine (oblivious_name slot).bind fun slot => ?_
  cases target with
  | fixnum n => exact oblivious_throw _
  | ref id =>
    exact (oblivious_effective value).bind fun value => (oblivious_onHeap _).bind fun _ => oblivious_push _

theorem oblivious_fetch : Oblivious fetch := by
  refine oblivious_frame.bind fun frame => (oblivious_liftExcept _).bind fun instruction => ?_
  exact (oblivious_note _).bind fun _ => (oblivious_updateFrame _).bind fun _ => oblivious_pure _

theorem oblivious_step : Oblivious (step ctx) := by
  refine oblivious_fetch.bind fun instruction => ?_
  cases instruction with
  | pushSelf => exact oblivious_updateFrame _
  | pushLiteral kind index => exact (oblivious_literal kind index).bind fun _ => oblivious_push _
  | pop => exact oblivious_pop.map _
  | send kind count => exact oblivious_send kind count
  | returnTop => exact oblivious_returnTop
  | addSlot kind => exact oblivious_addSlot kind

end Exec

namespace Machine

variable {m k : Machine} {ctx : Context}

theorem Alike.terminate (h : m.Alike k) (ctx : Context) (fault : Fault) :
    (m.terminate ctx fault).Alike (k.terminate ctx fault) := by
  obtain ⟨journal, rfl⟩ := alike_iff.1 h
  have hheap : (note { m with journal } (.failed m.process.id fault)).unwind.heap =
      (m.note (.failed m.process.id fault)).unwind.heap := rfl
  unfold Machine.terminate
  dsimp only
  rw [hheap]
  cases ctx.roots.newString fault.message (m.note (.failed m.process.id fault)).unwind.heap <;> exact ⟨rfl, rfl⟩

theorem Alike.fail (h : m.Alike k) (ctx : Context) (fault : Fault) : (m.fail ctx fault).Alike (k.fail ctx fault) := by
  unfold Machine.fail
  dsimp only
  split
  · have hreport := ((Exec.oblivious_onHeap (ctx.roots.newString fault.message)).bind fun message =>
      @Exec.oblivious_raise ctx message (some fault)).alike h
    split <;> rename_i hm <;> split <;> rename_i hk <;> rw [hm, hk] at hreport
    · exact hreport.2
    · exact hreport.elim
    · exact hreport.elim
    · obtain ⟨rfl, halike⟩ := hreport
      exact halike.terminate ctx _
  · exact h.terminate ctx fault

/-- One instruction does the same whatever the journal says. -/
theorem Alike.advance (h : m.Alike k) (ctx : Context) : (m.advance ctx).Alike (k.advance ctx) := by
  have hstep := (@Exec.oblivious_step ctx).alike h
  unfold Machine.advance
  split <;> rename_i hm <;> split <;> rename_i hk <;> rw [hm, hk] at hstep
  · exact hstep.2
  · exact hstep.elim
  · exact hstep.elim
  · obtain ⟨rfl, halike⟩ := hstep
    exact halike.fail ctx _

theorem Alike.iterate (h : m.Alike k) (ctx : Context) (count : Nat) :
    ((Machine.advance ctx)^[count] m).Alike ((Machine.advance ctx)^[count] k) := by
  induction count generalizing m k with
  | zero => exact h
  | succ count ih => exact ih (h.advance ctx)

end Machine

end ProtoVm
