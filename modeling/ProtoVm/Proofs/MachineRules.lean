import ProtoVm.Proofs.Rules
import ProtoVm.Proofs.Twins

/-!
# Rules for machines

A rule for machines is a guarantee that is kept when the heap changes as a rule for heaps has it, when events are noted
and when the innermost frame gets other operands. So it is kept by everything that neither begins nor ends a call, and
if frames can be marked, also by the literals of code.
-/

namespace ProtoVm

/-- The faults of code that cannot be read or that names a literal it does not have. -/
def Fault.concernsCode : Fault → Bool
  | invalidOpcode _ | invalidOperand .. | truncatedCode _ | literalOutOfRange _ | literalMismatch _ => true
  | _ => false

theorem Fault.concernsCode_of_isOperational {fault : Fault} (h : fault.isOperational = true) :
    fault.concernsCode = false := by
  cases fault <;> simp [isOperational, concernsCode] at h ⊢

namespace Machine

/-- A guarantee that is kept whenever one thing is done to a machine short of a call. -/
structure Rule extends Guarantee Machine where
  heapRule : Heap.Rule
  fault {fault : Fault} (h : fault.concernsCode = false) : faults fault
  heapFault {fault : Fault} (h : heapRule.faults fault) : faults fault
  heap {m : Machine} {heap : Heap} (h : heapRule.Holds m.heap heap) : Holds m { m with heap }
  journal (m : Machine) (journal : List Event) : Holds m { m with journal }
  operands {m : Machine} {top : Frame} {callers : List Frame} (h : m.process.frames = top :: callers)
    (stack : List Value) : Holds m { m with process := { m.process with frames := { top with stack } :: callers } }

/-- Frames can be marked, all methods can be made, and all faults can come up. -/
structure Rule.Lenient (rule : Rule) : Prop where
  anyFault : ∀ fault, rule.faults fault
  anyBody : ∀ body, rule.heapRule.bodies body
  mark : ∀ {m : Machine} {top : Frame} {callers : List Frame}, m.process.frames = top :: callers →
    rule.Holds m { m with process := { m.process with frames := { top with captured := true } :: callers } }

namespace Rule

open Exec

variable {rule : Machine.Rule} {m : Machine} {ctx : Context}

/-! ## Operands -/

theorem governs_onHeap {α : Type} {x : HeapM α} (h : rule.heapRule.Governs x m.heap) :
    rule.Governs (onHeap x) m :=
  ends_onHeap.2 (h.mono (fun _ _ h => rule.heap h) fun _ _ h => ⟨rule.heapFault h.1, rule.heap h.2⟩)

theorem governs_note (event : ProcessId → Event) : rule.Governs (Exec.note event) m := .modify (rule.journal m _)

theorem governs_frame : rule.Governs frame m := by
  refine .get ?_
  split
  · exact .pure _
  · exact .throw (rule.fault rfl)

theorem governs_updateFrame {edit : Frame → Frame}
    (h : ∀ top callers, m.process.frames = top :: callers →
      rule.Holds m { m with process := { m.process with frames := edit top :: callers } }) :
    rule.Governs (updateFrame edit) m := by
  unfold Guarantee.Governs Ends updateFrame
  cases hframes : m.process.frames with
  | nil => exact ⟨rule.fault rfl, rule.refl m⟩
  | cons top callers => exact h top callers hframes

theorem governs_push (value : Value) : rule.Governs (push value) m :=
  governs_updateFrame fun _ _ hframes => rule.operands hframes _

theorem governs_pop : rule.Governs pop m := by
  refine governs_frame.bind fun frame _ _ => ?_
  split
  · exact (governs_updateFrame fun _ _ hframes => rule.operands hframes _).bind fun _ _ _ => .pure _
  · exact .throw (rule.fault rfl)

theorem governs_popOperands (argc : Nat) : rule.Governs (popOperands argc) m := by
  refine governs_frame.bind fun frame _ _ => ?_
  split
  · exact (governs_updateFrame fun _ _ hframes => rule.operands hframes _).bind fun _ _ _ => .pure _
  · exact .throw (rule.fault rfl)

theorem governs_name (value : Value) : rule.Governs (name ctx value) m := by
  refine .get ?_
  simp only
  split
  · exact .pure _
  · exact .throw (rule.fault rfl)

theorem governs_names (value : Option Value) : rule.Governs (value.mapM (name ctx)) m := by
  cases value with
  | none => exact .pure _
  | some value => exact (governs_name value).bind fun _ _ _ => .pure _

theorem governs_message (kind : SendKind) (count : UInt8) : rule.Governs (message ctx kind count) m := by
  have hrest {m : Machine} (selector : Value) (parent : Option Value) :
      rule.Governs
        (do let operands ← popOperands (kind.argCount count)
            let selector ← name ctx selector
            let parent ← parent.mapM (name ctx)
            Exec.note (.sent · selector operands.1)
            return (⟨operands.1, selector, parent, operands.2⟩ : Message)) m :=
    (governs_popOperands _).bind fun operands _ _ => (governs_name selector).bind fun selector _ _ =>
      (governs_names parent).bind fun parent _ _ => (governs_note _).bind fun _ _ _ => .pure _
  refine governs_pop.bind fun selector _ _ => ?_
  simp only
  split
  · exact (governs_pop.bind fun parent _ _ => .pure _).bind fun parent _ _ => hrest selector parent
  · exact hrest selector none

/-! ## Searches and edits -/

theorem governs_lookup (value : Value) (name : String) : rule.Governs (lookup ctx value name) m :=
  rule.trans (rule.heap (rule.heapRule.slotLookup m.heap _ _ _)) (rule.journal _ _)

theorem governs_resolve (receiver : Value) (selector : String) (parent : Option String) :
    rule.Governs (resolve ctx receiver selector parent) m := by
  cases parent with
  | none => exact governs_lookup receiver selector
  | some parent =>
    refine .get ?_
    split
    · exact governs_lookup _ selector
    · exact .throw (rule.fault rfl)
    · exact .throw (rule.fault rfl)

theorem governs_assign {holder : ObjectId} {selector : String} {args : List Value}
    (h : ∀ arg, args = [arg] → m.heap.hasSlot holder (Selector.assigned selector) = true →
      rule.heapRule.assigns holder)
    (receiver : Value) : rule.Governs (assign holder selector receiver args) m := by
  unfold assign
  split
  · refine .get (.get ((governs_onHeap ?_).bind fun ok _ _ => ?_))
    · exact rule.heapRule.setSlot (h _ rfl) _
    · cases ok with
      | true => exact governs_push _
      | false => exact .throw (rule.fault rfl)
  · exact .throw (rule.fault rfl)

theorem governs_addition : rule.Governs (addition ctx) m :=
  governs_pop.bind fun _ _ _ => governs_pop.bind fun slot _ _ => governs_pop.bind fun _ _ _ =>
    (governs_name slot).bind fun _ _ _ => .pure _

theorem governs_addSlot {kind : SlotKind}
    (h : ∀ id name value k, addition ctx m = .ok (.ref id, name, value) k → rule.heapRule.edits id) :
    rule.Governs (addSlot ctx kind) m := by
  rw [addSlot_eq]
  refine governs_addition.bind fun operands k haddition => ?_
  rcases operands with ⟨target, name, value⟩
  cases target with
  | fixnum n => exact .throw (rule.fault rfl)
  | ref id =>
    refine .get ((governs_onHeap (.modify ?_)).bind fun _ _ _ => governs_push _)
    have hid := h id name value k haddition
    cases kind with
    | normal => exact rule.heapRule.edit hid k.heap (.addSlot name _)
    | parent => exact rule.heapRule.edit hid k.heap (.addParent name _)

/-! ## Literals -/

theorem governs_instantiate (hrule : rule.Lenient) (site : Site) (kind : ObjectKind) (params : List String)
    (code : Option Code) : rule.Governs (instantiate site kind params code) m :=
  (governs_onHeap (Heap.Rule.governs_template (hrule.anyBody _) kind params)).bind fun template _ _ =>
    governs_frame.bind fun _ _ _ => (governs_updateFrame fun _ _ hframes => hrule.mark hframes).bind fun _ _ _ =>
      (governs_onHeap (Heap.Rule.governs_instantiate template _)).bind fun _ _ _ => .pure _

theorem governs_liftExcept (hrule : rule.Lenient) {α : Type} (x : Except Fault α) : rule.Governs (liftExcept x) m :=
  ends_liftExcept.2 ⟨fun _ _ => rule.refl m, fun fault _ => ⟨hrule.anyFault fault, rule.refl m⟩⟩

theorem governs_literal (hrule : rule.Lenient) {kind : LiteralKind} (h : kind = .text → rule.heapRule.lists)
    (index : UInt8) : rule.Governs (literal ctx kind index) m := by
  unfold literal
  split
  · exact .pure _
  · exact .pure _
  · refine governs_frame.bind fun frame _ _ => (governs_liftExcept hrule _).bind fun l _ _ => ?_
    dsimp only
    split
    · exact .throw (hrule.anyFault _)
    · rename_i hsame
      cases l with
      | int n =>
        dsimp only
        split
        · exact .pure _
        · exact .throw (rule.fault rfl)
      | float x => exact governs_onHeap (Heap.Rule.governs_newFloat x)
      | text t => exact governs_onHeap (Heap.Rule.governs_intern (h (not_not.1 hsame).symm) t)
      | object kind params code => exact governs_instantiate hrule _ _ _ _

end Rule

end Machine

end ProtoVm
