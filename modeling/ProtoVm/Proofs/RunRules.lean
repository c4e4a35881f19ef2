import ProtoVm.Proofs.Anatomy

/-!
# Rules for runs

A rule for heaps that lets objects be given back is kept by every instruction, whether it succeeds or fails. It has to
permit what the instruction assigns to or edits, and this is one object at most, read off before the instruction is
run. Where the instruction pushes a text, the rule has to let texts be listed.
-/

namespace ProtoVm

/-- A rule for heaps under which objects can be given back and all methods can be made. -/
structure Heap.RunRule extends Heap.Rule where
  release (heap : Heap) (id : ObjectId) : Holds heap (heap.release id)
  anyFault (fault : Fault) : faults fault
  anyBody (body : Body) : bodies body

namespace Machine

open Exec

/-- The object to which the next instruction assigns. -/
def assigned? (ctx : Context) (m : Machine) : Option ObjectId :=
  match fetch m with
  | .ok (.send kind count) fetched =>
    match message ctx kind count fetched with
    | .ok message sent => Exec.assigned? ctx sent message
    | _ => none
  | _ => none

/-- The object that the next instruction edits. -/
def edited? (ctx : Context) (m : Machine) : Option ObjectId :=
  match fetch m with
  | .ok (.addSlot _) fetched =>
    match addition ctx fetched with
    | .ok (.ref id, _, _) _ => some id
    | _ => none
  | _ => none

end Machine

namespace Heap.RunRule

open Exec
open Machine.Rule (governs_onHeap governs_frame governs_updateFrame governs_push governs_pop governs_message
  governs_resolve governs_assign governs_addSlot governs_literal)

/-- The rule for machines that asks nothing of frames. -/
def machine (rule : Heap.RunRule) : Machine.Rule where
  Holds m m' := rule.Holds m.heap m'.heap
  faults := rule.faults
  refl m := rule.refl m.heap
  trans := rule.trans
  heapRule := rule.toRule
  fault _ := rule.anyFault _
  heapFault h := h
  heap h := h
  journal m _ := rule.refl m.heap
  operands {m _ _} _ _ := rule.refl m.heap

variable {rule : Heap.RunRule} {m : Machine} {ctx : Context}

theorem lenient_machine (rule : Heap.RunRule) : rule.machine.Lenient :=
  ⟨rule.anyFault, rule.anyBody, fun _ => rule.refl _⟩

theorem governs_throw {α : Type} {fault : Fault} : rule.machine.Governs (throw fault : Exec α) m :=
  .throw (rule.anyFault fault)

/-! ## Ends -/

theorem releaseAll (rule : Heap.RunRule) (heap : Heap) (ids : List ObjectId) :
    rule.Holds heap (heap.releaseAll ids) := by
  unfold Heap.releaseAll
  induction ids generalizing heap with
  | nil => exact rule.refl heap
  | cons id ids ih => exact rule.trans (rule.release heap id) (ih _)

theorem unwind (rule : Heap.RunRule) (m : Machine) : rule.Holds m.heap m.unwind.heap := rule.releaseAll _ _

theorem conclude (rule : Heap.RunRule) (ctx : Context) (value : Value) (outcome : String → Outcome) (m : Machine) :
    rule.Holds m.heap (m.conclude ctx value outcome).heap := rule.unwind m

theorem terminate (rule : Heap.RunRule) (ctx : Context) (fault : Fault) (m : Machine) :
    rule.Holds m.heap (m.terminate ctx fault).heap := by
  have hunwind : rule.Holds m.heap (m.note (.failed m.process.id fault)).unwind.heap := rule.unwind _
  have hmessage {heap : Heap} : rule.Governs (ctx.roots.newString fault.message) heap :=
    Rule.governs_newString fault.message
  unfold Machine.terminate
  simp only
  split
  · exact rule.trans (rule.trans hunwind (hmessage.of_ok ‹_›)) (rule.conclude ctx _ _ _)
  · exact rule.trans (rule.trans hunwind (hmessage.of_error ‹_›).2) (rule.conclude ctx _ _ _)

/-! ## Calls and errors -/

theorem governs_note (event : ProcessId → Event) : rule.machine.Governs (note event) m :=
  Machine.Rule.governs_note event

theorem governs_conclude (value : Value) (outcome : String → Outcome) :
    rule.machine.Governs (modify (·.conclude ctx value outcome)) m := .modify (rule.conclude ctx value outcome m)

theorem governs_activate (object : ObjectId) (method : Method) (selector : String) (receiver lexical : Value)
    (args : List Value) (kind : FrameKind) :
    rule.machine.Governs (activate ctx object method selector receiver lexical args kind) m := by
  unfold activate
  split
  · exact governs_throw
  · refine .get ?_
    split
    · exact governs_throw
    · refine (governs_onHeap (Rule.governs_newRecords _ _ _ _ _ _)).bind fun records _ _ => ?_
      exact (governs_note _).bind fun _ m' _ => .modify (rule.refl m'.heap)

theorem governs_callBlock (block : ObjectId) (selector : String) (args : List Value) (kind : FrameKind) :
    rule.machine.Governs (callBlock ctx block selector args kind) m := by
  refine .get ?_
  simp only
  split
  · exact governs_throw
  · exact governs_activate _ _ _ _ _ _ _

theorem governs_leave : rule.machine.Governs leave m := by
  refine .modify ?_
  split
  · exact rule.refl m.heap
  · exact rule.releaseAll _ _

theorem governs_returnTop : rule.machine.Governs (returnTop ctx) m := by
  refine governs_frame.bind fun frame _ _ => ?_
  split
  · exact governs_leave.bind fun _ _ _ => (governs_note _).bind fun _ _ _ => governs_conclude _ _
  · refine .get (governs_leave.bind fun _ _ _ => .get ?_)
    split
    · exact governs_conclude _ _
    · exact governs_push _

theorem governs_suspend : rule.machine.Governs suspend m := rule.refl m.heap

theorem governs_raise (value : Value) (cause : Option Fault) : rule.machine.Governs (raise ctx value cause) m := by
  refine .get ?_
  split
  · exact (governs_note _).bind fun _ _ _ => governs_conclude _ _
  · exact governs_suspend.bind fun index _ _ => (governs_onHeap (Rule.governs_newWithPayload _)).bind
      fun token _ _ => (governs_note _).bind fun _ _ _ => governs_callBlock _ _ _ _

theorem governs_restore (token value : Value) : rule.machine.Governs (restore token value) m := by
  refine .get ?_
  split
  · -- the rest stands in a join point behind the first exit
    dsimp only
    split
    · exact governs_throw
    · split
      · exact governs_throw
      · exact (governs_note _).bind fun _ m' _ => .modify_bind (rule.releaseAll m'.heap _) (governs_push value)
  · exact governs_throw

/-! ## Sends -/

theorem governs_follow (reply : Reply) : rule.machine.Governs (follow ctx reply) m := by
  cases reply with
  | answer value => exact governs_push value
  | halt value => exact (governs_note _).bind fun _ _ _ => governs_conclude _ _
  | raise value => exact governs_raise value none
  | handler block => exact governs_updateFrame fun _ _ _ => rule.refl m.heap
  | restore token value => exact governs_restore token value

theorem governs_callNative (native : Native) (selector : String) (receiver : Value) (args : List Value) :
    rule.machine.Governs (callNative ctx native selector receiver args) m := by
  unfold callNative
  split
  · exact governs_throw
  · rename_i hlength
    have harity : (args.map m.heap.effective).length = native.arity :=
      (List.length_map _).trans (not_not.1 hlength)
    exact .get (.get ((governs_onHeap (Rule.governs_native native _ harity)).bind fun reply _ _ =>
      governs_follow reply))

theorem governs_apply {holder : ObjectId} {value : Value} {selector : String} {args : List Value}
    (h : ∀ arg, behaviorOf m.heap value = .assignment → args = [arg] →
      m.heap.hasSlot holder (Selector.assigned selector) = true → rule.assigns holder)
    (receiver : Value) : rule.machine.Governs (apply ctx holder value receiver selector args) m := by
  refine .get ?_
  split
  · rename_i hbehavior
    exact governs_assign (fun arg => h arg hbehavior) receiver
  · exact governs_callNative _ _ _ _
  · split
    · exact .get (governs_push _)
    · exact .get (governs_activate _ _ _ _ _ _ _)
  · exact .get (governs_push _)

theorem governs_deliver {message : Message} (hcalled : called? m.heap message = none)
    (h : ∀ id, assigned? ctx m message = some id → rule.assigns id) : rule.machine.Governs (deliver ctx message) m := by
  refine (governs_resolve _ _ _).bind fun result k hresolve => ?_
  cases result with
  | found holder value =>
    refine governs_apply (fun arg hbehavior hargs hslot => h holder ?_) _
    simp only [assigned?, hcalled, hresolve, hbehavior, hargs, hslot, if_true]
  | missing => exact governs_throw
  | ambiguous first second => exact (governs_note _).bind fun _ _ _ => governs_throw

theorem governs_dispatch {message : Message} (h : ∀ id, assigned? ctx m message = some id → rule.assigns id) :
    rule.machine.Governs (dispatch ctx message.receiver message.selector message.parent message.args) m := by
  rw [dispatch_eq]
  refine .get ?_
  split
  · exact governs_callBlock _ _ _ _
  · exact governs_deliver ‹_› h

/-! ## Instructions -/

/-- The rule permits what the next instruction does to the heap. -/
structure Permits (rule : Heap.RunRule) (ctx : Context) (m : Machine) : Prop where
  assign : ∀ id, m.assigned? ctx = some id → rule.assigns id
  edit : ∀ id, m.edited? ctx = some id → rule.edits id
  list : ∀ index, m.Reads (.pushLiteral .text index) → rule.lists

theorem governs_execute (h : rule.Permits ctx m) {i : Instruction} {fetched : Machine}
    (hfetch : fetch m = .ok i fetched) : rule.machine.Governs (execute ctx i) fetched := by
  cases i with
  | pushSelf => exact governs_updateFrame fun _ _ _ => rule.refl fetched.heap
  | pushLiteral kind index =>
    refine (governs_literal rule.lenient_machine (fun hkind => h.list index ?_) index).bind fun _ _ _ => governs_push _
    exact hkind ▸ (fetch_past.of_ok hfetch).1
  | pop => exact governs_pop.bind fun _ _ _ => .pure _
  | send kind count =>
    rw [show execute ctx (.send kind count) = _ from send_eq kind count]
    refine (governs_message kind count).bind fun message sent hmessage => governs_dispatch fun id hid => h.assign id ?_
    simp only [Machine.assigned?, hfetch, hmessage, hid]
  | returnTop => exact governs_returnTop
  | addSlot kind =>
    refine governs_addSlot fun id name value k haddition => h.edit id ?_
    simp only [Machine.edited?, hfetch, haddition]

theorem governs_step (h : rule.Permits ctx m) : rule.machine.Governs (step ctx) m := by
  rw [step_eq]
  refine Guarantee.Governs.bind (fetch_past.mono (fun i fetched hpast => ?_) fun fault k hpast => ?_)
    fun i fetched hfetch => governs_execute h hfetch
  · show rule.Holds m.heap fetched.heap
    exact hpast.2.1 ▸ rule.refl m.heap
  · exact ⟨rule.anyFault fault, hpast.1 ▸ rule.machine.refl m⟩

theorem governs_report (ctx : Context) (fault : Fault) (m : Machine) :
    rule.machine.Governs (Machine.report ctx fault) m :=
  (governs_onHeap (Rule.governs_newString _)).bind fun message _ _ => governs_raise message (some fault)

/-- What follows from a failure keeps the rule. -/
theorem fail (rule : Heap.RunRule) (ctx : Context) (fault : Fault) (m : Machine) :
    rule.Holds m.heap (m.fail ctx fault).heap := by
  have hreport : rule.machine.Governs (Machine.report ctx fault) m := governs_report ctx fault m
  rw [Machine.fail_eq]
  split
  · split
    · exact hreport.of_ok ‹_›
    · exact rule.trans (hreport.of_error ‹_›).2 (rule.terminate ctx _ _)
  · exact rule.terminate ctx fault m

/-- An instruction keeps the rule, whether it succeeds or fails. -/
theorem advance (h : rule.Permits ctx m) : rule.Holds m.heap (m.advance ctx).heap := by
  have hstep : rule.machine.Governs (step ctx) m := governs_step h
  unfold Machine.advance
  split
  · exact hstep.of_ok ‹_›
  · exact rule.trans (hstep.of_error ‹_›).2 (rule.fail ctx _ _)

end Heap.RunRule

end ProtoVm
