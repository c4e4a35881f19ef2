import ProtoVm.Proofs.Checkpoints
import ProtoVm.Proofs.Representation

/-!
# The effect of one instruction on objects

An instruction that adds a slot changes the object below its operands, and a send that comes to an assignment changes one
value of the object that holds the assignment. Apart from these, whatever an instruction does and however it ends, the
objects that are there before and after it are the same.
-/

namespace ProtoVm

namespace Exec

/-! ## Operations that succeed -/

section

variable {ε σ α β : Type} {s s' : σ}

theorem bind_ok_iff {x : EStateM ε σ α} {f : α → EStateM ε σ β} {b : β} :
    (x >>= f) s = .ok b s' ↔ ∃ a middle, x s = .ok a middle ∧ f a middle = .ok b s' := by
  simp only [bind, EStateM.bind]
  cases x s with
  | ok a middle => simp
  | error e middle => simp

theorem pure_ok_iff {a b : α} : (pure a : EStateM ε σ α) s = .ok b s' ↔ a = b ∧ s = s' := by
  rw [← EStateM.Result.ok.injEq]
  rfl

theorem throw_ok_iff {e : ε} {b : β} : (throw e : EStateM ε σ β) s = .ok b s' ↔ False := by
  constructor
  · intro h
    cases h
  · exact False.elim

end

end Exec

namespace Machine

/-- The operands of the innermost frame. -/
def stack? (m : Machine) : Option (List Value) := m.process.frames.head?.map (·.stack)

/-- The machine with other operands in its innermost frame. -/
def withStack (m : Machine) (stack : List Value) : Machine :=
  { m with process := { m.process with frames := m.process.frames.modifyHead ({ · with stack }) } }

variable {m : Machine} {stack stack' : List Value}

@[simp] theorem heap_withStack : (m.withStack stack).heap = m.heap := rfl

@[simp] theorem id_withStack : (m.withStack stack).process.id = m.process.id := rfl

@[simp] theorem length_withStack : (m.withStack stack).process.frames.length = m.process.frames.length :=
  List.length_modifyHead

@[simp] theorem stack?_withStack : (m.withStack stack).stack? = m.stack?.map fun _ => stack := by
  unfold stack? withStack
  cases m.process.frames <;> rfl

@[simp] theorem withStack_withStack : (m.withStack stack).withStack stack' = m.withStack stack' := by
  unfold withStack
  cases m.process.frames <;> rfl

theorem stack?_eq_some : m.stack? = some stack ↔
    ∃ top callers, m.process.frames = top :: callers ∧ top.stack = stack := by
  unfold stack?
  cases m.process.frames <;> simp

end Machine

namespace Exec

variable {m k : Machine} {ctx : Context}

theorem pop_eq (m : Machine) :
    pop m = match m.stack? with
      | some (value :: rest) => .ok value (m.withStack rest)
      | _ => .error .stackUnderflow m := by
  obtain ⟨heap, ⟨id, frames, parked, outcome⟩, journal⟩ := m
  rcases frames with _ | ⟨⟨body, ip, stack, activation, receiver, handler, kind, records, captured⟩, callers⟩
  · rfl
  · cases stack <;> rfl

theorem popOperands_eq (argc : Nat) (m : Machine) :
    popOperands argc m = match m.stack?.map fun stack => (stack.take argc, stack.drop argc) with
      | some (args, receiver :: rest) => .ok (receiver, args.reverse) (m.withStack rest)
      | _ => .error .stackUnderflow m := by
  obtain ⟨heap, ⟨id, frames, parked, outcome⟩, journal⟩ := m
  rcases frames with _ | ⟨⟨body, ip, stack, activation, receiver, handler, kind, records, captured⟩, callers⟩
  · rfl
  · simp only [Machine.stack?, List.head?_cons, Option.map_some]
    refine (bind_of_ok (x := Exec.frame) rfl).trans ?_
    dsimp only
    cases stack.drop argc <;> rfl

theorem pop_ok_iff {value : Value} :
    pop m = .ok value k ↔ ∃ rest, m.stack? = some (value :: rest) ∧ k = m.withStack rest := by
  rw [pop_eq]
  rcases m.stack? with _ | _ | ⟨first, rest⟩
  · simp
  · simp
  · simp [eq_comm, and_assoc]

theorem popOperands_ok_iff {argc : Nat} {receiver : Value} {args : List Value} :
    popOperands argc m = .ok (receiver, args) k ↔
      ∃ rest, m.stack? = some (args.reverse ++ receiver :: rest) ∧ args.length = argc ∧ k = m.withStack rest := by
  rw [popOperands_eq]
  rcases m.stack? with _ | stack
  · simp
  · constructor
    · intro h
      simp only [Option.map_some] at h
      split at h
      · rename_i heq
        simp only [Option.some.injEq, Prod.mk.injEq] at heq
        cases h
        obtain ⟨rfl, hdrop⟩ := heq
        have hlength := congrArg List.length hdrop
        rw [List.length_drop, List.length_cons] at hlength
        refine ⟨_, ?_, by simp; omega, rfl⟩
        rw [List.reverse_reverse, ← hdrop, List.take_append_drop]
      · cases h
    · rintro ⟨rest, hstack, rfl, rfl⟩
      cases hstack
      have hlength : args.reverse.length = args.length := List.length_reverse
      simp only [Option.map_some, ← hlength, List.take_left, List.drop_left, List.reverse_reverse]

theorem name_ok_iff {value : Value} {s : String} :
    name ctx value m = .ok s k ↔ m.heap.text? value = some s ∧ k = m := by
  unfold name
  rw [get_bind]
  cases m.heap.text? value with
  | none => simp [throw_ok_iff]
  | some text => simp [pure_ok_iff, eq_comm]

theorem note_ok_iff {event : ProcessId → Event} {a : Unit} :
    note event m = .ok a k ↔ k = m.note (event m.process.id) := by
  show EStateM.Result.ok () (m.note (event m.process.id)) = .ok a k ↔ _
  simp [eq_comm]

theorem addition_ok_iff {target value : Value} {slot : String} :
    addition ctx m = .ok (target, slot, value) k ↔
      ∃ named rest, m.stack? = some (value :: named :: target :: rest) ∧ m.heap.text? named = some slot ∧
        k = m.withStack rest := by
  simp only [addition, bind_ok_iff, pop_ok_iff, name_ok_iff, pure_ok_iff]
  constructor
  · rintro ⟨a, m₁, ⟨rest₁, h₁, rfl⟩, b, m₂, ⟨rest₂, h₂, rfl⟩, c, m₃, ⟨rest₃, h₃, rfl⟩, d, m₄, ⟨h₄, rfl⟩, h₅, rfl⟩
    simp only [Prod.mk.injEq] at h₅
    obtain ⟨rfl, rfl, rfl⟩ := h₅
    simp only [Machine.stack?_withStack, h₁, Option.map_some, Option.some.injEq] at h₂ h₃
    subst h₂ h₃
    exact ⟨b, rest₃, h₁, h₄, by simp⟩
  · rintro ⟨named, rest, hstack, htext, rfl⟩
    exact ⟨value, _, ⟨_, hstack, rfl⟩, named, _, ⟨target :: rest, by simp [hstack], rfl⟩, target, _,
      ⟨rest, by simp [hstack], rfl⟩, slot, _, ⟨htext, rfl⟩, rfl, by simp⟩

/-- The message stands on top of `stack`, above `rest`, as a send of this kind expects it. -/
inductive Message.Tops (heap : Heap) (kind : SendKind) (count : UInt8) (message : Message) (stack rest : List Value) : Prop
  | plain {selector : Value} (hkind : kind.isResend = false) (hparent : message.parent = none)
      (hstack : stack = selector :: (message.args.reverse ++ message.receiver :: rest))
      (hselector : heap.text? selector = some message.selector) (hcount : message.args.length = kind.argCount count)
  | resend {selector parent : Value} {name : String} (hkind : kind.isResend = true) (hparent : message.parent = some name)
      (hstack : stack = selector :: parent :: (message.args.reverse ++ message.receiver :: rest))
      (hselector : heap.text? selector = some message.selector) (hname : heap.text? parent = some name)
      (hcount : message.args.length = kind.argCount count)

theorem message_plain {kind : SendKind} (count : UInt8) (hkind : kind.isResend = false) :
    Exec.message ctx kind count = (do
      let selector ← pop
      let operands ← popOperands (kind.argCount count)
      let selector ← name ctx selector
      note (.sent · selector operands.1)
      return ⟨operands.1, selector, none, operands.2⟩) := by
  unfold Exec.message
  simp only [hkind, Bool.false_eq_true, if_false, pure_bind]
  rfl

theorem message_resend {kind : SendKind} (count : UInt8) (hkind : kind.isResend = true) :
    Exec.message ctx kind count = (do
      let selector ← pop
      let parent ← pop
      let operands ← popOperands (kind.argCount count)
      let selector ← name ctx selector
      let parent ← name ctx parent
      note (.sent · selector operands.1)
      return ⟨operands.1, selector, some parent, operands.2⟩) := by
  have hmapM (value : Value) : (some value).mapM (name ctx) = (do return some (← name ctx value)) := rfl
  unfold Exec.message
  simp only [hkind, if_true, map_eq_pure_bind, bind_assoc, pure_bind, hmapM]

theorem message_ok_iff {kind : SendKind} {count : UInt8} {message : Message} :
    Exec.message ctx kind count m = .ok message k ↔
      ∃ stack rest, m.stack? = some stack ∧ message.Tops m.heap kind count stack rest ∧
        k = (m.withStack rest).note (.sent m.process.id message.selector message.receiver) := by
  obtain ⟨receiver, selector, parent, args⟩ := message
  cases hkind : kind.isResend with
  | false =>
    rw [message_plain count hkind]
    simp only [bind_ok_iff, pop_ok_iff, pure_ok_iff, Prod.exists, popOperands_ok_iff, name_ok_iff, note_ok_iff]
    constructor
    · rintro ⟨named, m₁, ⟨rest₁, h₁, rfl⟩, receiver, args, m₂, ⟨rest, h₂, hcount, rfl⟩, selector, m₃, ⟨h₃, rfl⟩, -, m₄,
        rfl, h₅, rfl⟩
      cases h₅
      rw [Machine.stack?_withStack, h₁, Option.map_some, Option.some.injEq] at h₂
      subst h₂
      exact ⟨_, rest, h₁, .plain hkind rfl rfl h₃ hcount, by simp⟩
    · rintro ⟨stack, rest, hstack, htops, rfl⟩
      cases htops with
      | resend hresend => simp [hkind] at hresend
      | @plain named _ hparent hstack' hselector hcount =>
        subst hstack' hparent
        exact ⟨named, _, ⟨_, hstack, rfl⟩, receiver, args, _, ⟨rest, by simp [hstack], hcount, rfl⟩, selector, _,
          ⟨hselector, rfl⟩, (), _, rfl, rfl, by simp⟩
  | true =>
    rw [message_resend count hkind]
    simp only [bind_ok_iff, pop_ok_iff, pure_ok_iff, Prod.exists, popOperands_ok_iff, name_ok_iff, note_ok_iff]
    constructor
    · rintro ⟨named, m₁, ⟨rest₁, h₁, rfl⟩, above, m₂, ⟨rest₂, h₂, rfl⟩, receiver, args, m₃, ⟨rest, h₃, hcount, rfl⟩, selector,
        m₄, ⟨h₄, rfl⟩, parent, m₅, ⟨h₅, rfl⟩, -, m₆, rfl, h₆, rfl⟩
      cases h₆
      simp only [Machine.stack?_withStack, h₁, Option.map_some, Option.some.injEq] at h₂ h₃
      subst h₂ h₃
      exact ⟨_, rest, h₁, .resend hkind rfl rfl h₄ h₅ hcount, by simp⟩
    · rintro ⟨stack, rest, hstack, htops, rfl⟩
      cases htops with
      | plain hplain => simp [hkind] at hplain
      | @resend named above name _ hparent hstack' hselector hname hcount =>
        subst hstack'
        cases hparent
        exact ⟨named, _, ⟨_, hstack, rfl⟩, above, _, ⟨args.reverse ++ receiver :: rest, by simp [hstack], rfl⟩, receiver,
          args, _, ⟨rest, by simp [hstack], hcount, rfl⟩, selector, _, ⟨hselector, rfl⟩, name, _, ⟨hname, rfl⟩, (), _,
          rfl, rfl, by simp⟩

/-! ## Searches -/

/-- What the search for a message ends with. A resend searches from the value of a parent. -/
def Message.found (roots : Roots) (heap : Heap) (message : Message) : Lookup :=
  match message.parent with
  | none => (heap.slotLookup roots (roots.startOf message.receiver) message.selector).result
  | some parent =>
    match heap.parentSlotLookup roots (roots.startOf message.receiver) parent with
    | .found _ value => (heap.slotLookup roots (roots.startOf value) message.selector).result
    | other => other

end Exec

/-- A search changes nothing but what is remembered. -/
theorem Heap.slotLookup_heap (heap : Heap) (roots : Roots) (start : ObjectId) (name : String) :
    ∃ cache, (heap.slotLookup roots start name).heap = { heap with cache } := by
  unfold slotLookup
  split
  · exact ⟨heap.cache, rfl⟩
  · rcases heap.parentLookup_heap roots start name with heq | ⟨holder, value, -, heq⟩
    · exact ⟨heap.cache, heq⟩
    · exact ⟨_, heq⟩

namespace Exec

variable {m k : Machine} {ctx : Context}

theorem lookup_eq (ctx : Context) (value : Value) (name : String) (m : Machine) : ∃ searched cache,
    lookup ctx value name m = .ok (m.heap.slotLookup ctx.roots (ctx.roots.startOf value) name).result searched ∧
      searched.process = m.process ∧ searched.heap = { m.heap with cache } := by
  obtain ⟨cache, hcache⟩ := m.heap.slotLookup_heap ctx.roots (ctx.roots.startOf value) name
  exact ⟨_, cache, rfl, rfl, hcache⟩

/-- A search ends as it is found to end, or fails where it finds nothing. -/
theorem resolve_eq (ctx : Context) (message : Message) (m : Machine) : ∃ searched cache,
    searched.process = m.process ∧ searched.heap = { m.heap with cache } ∧
      (resolve ctx message.receiver message.selector message.parent m = .ok (message.found ctx.roots m.heap) searched ∨
        ∃ fault, resolve ctx message.receiver message.selector message.parent m = .error fault searched ∧
          ∀ holder value, message.found ctx.roots m.heap ≠ .found holder value) := by
  obtain ⟨receiver, selector, parent, args⟩ := message
  cases parent with
  | none =>
    obtain ⟨searched, cache, hlookup, hprocess, hheap⟩ := lookup_eq ctx receiver selector m
    exact ⟨searched, cache, hprocess, hheap, .inl hlookup⟩
  | some parent =>
    simp only [resolve, get_bind, Message.found]
    cases m.heap.parentSlotLookup ctx.roots (ctx.roots.startOf receiver) parent with
    | found holder value =>
      obtain ⟨searched, cache, hlookup, hprocess, hheap⟩ := lookup_eq ctx value selector m
      exact ⟨searched, cache, hprocess, hheap, .inl hlookup⟩
    | missing => exact ⟨m, m.heap.cache, rfl, rfl, .inr ⟨_, rfl, by simp⟩⟩
    | ambiguous first second => exact ⟨m, m.heap.cache, rfl, rfl, .inr ⟨_, rfl, by simp⟩⟩

/-! ## Assignments -/

theorem assign_eq (holder : ObjectId) (selector : String) (receiver arg : Value) (m : Machine) :
    assign holder selector receiver [arg] m =
      if m.heap.hasSlot holder (Selector.assigned selector) then
        push (m.heap.effective receiver)
          { m with heap := (m.heap.setSlot holder (Selector.assigned selector) (m.heap.effective arg)).2 }
      else .error (.missingSlot (Selector.assigned selector)) m := by
  have hbind : assign holder selector receiver [arg] m =
      ((if (m.heap.setSlot holder (Selector.assigned selector) (m.heap.effective arg)).1 then
          push (m.heap.effective receiver)
        else throw (.missingSlot (Selector.assigned selector))) : Exec Unit)
        { m with heap := (m.heap.setSlot holder (Selector.assigned selector) (m.heap.effective arg)).2 } := rfl
  rw [hbind, Heap.hasSlot, Layout.contains, Heap.setSlot]
  cases (m.heap.object holder).shape.slots.index? (Selector.assigned selector) with
  | none => rfl
  | some index => rfl

theorem assign_error {holder : ObjectId} {selector : String} {receiver : Value} {args : List Value}
    (h : ∀ arg, args ≠ [arg]) : assign holder selector receiver args m = .error (.arityMismatch selector 1 args.length) m := by
  unfold assign
  split
  · exact absurd rfl (h _)
  · rfl

theorem push_eq (value : Value) (hframes : m.process.frames ≠ []) :
    ∃ stack, push value m = .ok () (m.withStack stack) := by
  obtain ⟨top, callers, hm⟩ := List.exists_cons_of_ne_nil hframes
  exact ⟨value :: top.stack, by simp [push, updateFrame, hm, Machine.withStack, Frame.push]⟩

theorem apply_of_assignment {holder : ObjectId} {marker receiver : Value} {selector : String} {args : List Value}
    (h : behaviorOf m.heap marker = .assignment) :
    apply ctx holder marker receiver selector args m = assign holder selector receiver args m := by
  unfold apply
  refine (get_bind _ m).trans ?_
  rw [h]

/-- A message that comes to an assignment changes a slot of the object that holds the assignment, or else it fails. -/
theorem apply_assignment {holder : ObjectId} {marker receiver : Value} {selector : String} {args : List Value}
    (hframes : m.process.frames ≠ []) (h : behaviorOf m.heap marker = .assignment) :
    (∃ arg stack, args = [arg] ∧ m.heap.hasSlot holder (Selector.assigned selector) = true ∧
      apply ctx holder marker receiver selector args m = .ok () (Machine.withStack
        { m with heap := (m.heap.setSlot holder (Selector.assigned selector) (m.heap.effective arg)).2 } stack)) ∨
      (¬∃ arg, args = [arg] ∧ m.heap.hasSlot holder (Selector.assigned selector) = true) ∧
      ∃ fault, apply ctx holder marker receiver selector args m = .error fault m := by
  rw [apply_of_assignment h]
  by_cases hargs : ∃ arg, args = [arg]
  · obtain ⟨arg, rfl⟩ := hargs
    rw [assign_eq]
    cases hslot : m.heap.hasSlot holder (Selector.assigned selector) with
    | true =>
      obtain ⟨stack, hpush⟩ := push_eq (m := { m with
        heap := (m.heap.setSlot holder (Selector.assigned selector) (m.heap.effective arg)).2 })
        (m.heap.effective receiver) hframes
      exact .inl ⟨arg, stack, rfl, rfl, hpush⟩
    | false => exact .inr ⟨by simp, _, rfl⟩
  · rw [assign_error fun arg heq => hargs ⟨arg, heq⟩]
    refine .inr ⟨?_, _, rfl⟩
    rintro ⟨arg, heq, -⟩
    exact hargs ⟨arg, heq⟩

theorem assigned?_eq_some {message : Message} {holder : ObjectId} (h : assigned? ctx m message = some holder) :
    called? m.heap message = none ∧
      (∃ marker, message.found ctx.roots m.heap = .found holder marker ∧ behaviorOf m.heap marker = .assignment) ∧
      ∃ arg, message.args = [arg] ∧ m.heap.hasSlot holder (Selector.assigned message.selector) = true := by
  obtain ⟨searched, cache, -, hsearched, hresolve⟩ := resolve_eq ctx message m
  unfold assigned? at h
  split at h
  · cases h
  · rename_i hcalled
    rcases hresolve with hok | ⟨fault, herror, -⟩
    · rw [hok] at h
      split at h
      · rename_i found marker _ heq
        simp only [EStateM.Result.ok.injEq] at heq
        obtain ⟨hfound, rfl⟩ := heq
        rw [hsearched] at h
        split at h
        · rename_i arg hbehavior hargs
          split at h
          · rename_i hslot
            cases h
            exact ⟨hcalled, ⟨marker, hfound, hbehavior⟩, arg, hargs, hslot⟩
          · cases h
        · cases h
      · cases h
    · rw [herror] at h
      cases h

end Exec

/-! ## Objects that an instruction leaves alone -/

namespace Heap

variable {l : Mandate} {heap heap' : Heap} {id : ObjectId} {object : Object}

theorem Touch.get?_of_some (h : Touch l heap heap') (tidy : heap.Tidy) (hid : heap.Issued id) (hassigns : ¬l.assigns id)
    (hedits : ¬l.edits id) (hget : heap'.get? id = some object) : heap.get? id = some object := by
  cases h with
  | make h hok =>
    have hadds := allocate_adds tidy hok
    rw [← hget, hadds.get?_of_ne]
    rintro rfl
    exact hadds.unissued hid
  | release other => exact get?_of_release hget
  | assign h index value =>
    rwa [get?_update, if_neg (by rintro rfl; exact hassigns h)] at hget
  | edit h edit =>
    rwa [get?_restructure, if_neg (by rintro rfl; exact hedits h)] at hget
  | aside hcells hfree hlimit hversion hunit => rwa [get?_of_cells hcells] at hget

/-- An object that no mandate names is as it was, if it is still there. -/
theorem Touches.get?_of_some (h : Touches l heap heap') (tidy : heap.Tidy) (hid : heap.Issued id)
    (hassigns : ¬l.assigns id) (hedits : ¬l.edits id) (hget : heap'.get? id = some object) :
    heap.get? id = some object := by
  induction h with
  | refl => exact hget
  | tail hrest h ih =>
    have hissued := (Touches.ages hrest tidy).issued id hid
    exact ih (h.get?_of_some (Touches.tidy hrest tidy) hissued hassigns hedits hget)

theorem versionOf_restructure (hlive : heap.isLive id = true) (edit : Object → Object) :
    (heap.restructure id edit).versionOf id = heap.version + 1 := by
  rw [versionOf, Heap.object, get?_restructure, if_pos rfl, get?_object hlive]
  rfl

theorem isLive_of_hasSlot {name : String} (h : heap.hasSlot id name = true) : heap.isLive id = true := by
  by_contra hdead
  rw [isLive, Bool.not_eq_true, Option.isSome_eq_false_iff, Option.isNone_iff_eq_none] at hdead
  simp [hasSlot, Heap.object, hdead, Layout.contains, Layout.index?] at h

theorem amends_setSlot (hp : heap.All Object.Packed) {name : String} (hslot : heap.hasSlot id name = true)
    (value : Value) :
    heap.Amends id (Entries.assign name value) (fun entries => entries) (heap.setSlot id name value).2 ∧
      ((heap.setSlot id name value).2.object id).shape = (heap.object id).shape := by
  have hlive := isLive_of_hasSlot hslot
  obtain ⟨index, hindex⟩ := Option.isSome_iff_exists.1 hslot
  simp only [setSlot, hindex]
  refine ⟨amends_update hlive ((hp.packed_object id).setSlot hindex value), ?_⟩
  rw [Heap.object, get?_update, if_pos rfl, get?_object hlive]
  rfl

end Heap

namespace Machine

open Exec

variable {m k : Machine} {ctx : Context} {i : Instruction} {message : Message} {holder : ObjectId} {marker : Value}

/-! ## One instruction -/

theorem Reads.eq {j : Instruction} (hi : m.Reads i) (hj : m.Reads j) : i = j := by
  obtain ⟨top, callers, hframes, hdecode⟩ := hi
  obtain ⟨top', callers', hframes', hdecode'⟩ := hj
  rw [hframes] at hframes'
  cases hframes'
  rw [hdecode] at hdecode'
  exact Except.ok.inj hdecode'

theorem Reads.pos (h : m.Reads i) : 0 < m.process.frames.length := by
  obtain ⟨top, callers, hframes, -⟩ := h
  simp [hframes]

theorem fetch_of_reads (h : m.Reads i) : ∃ fetched, fetch m = .ok i fetched ∧ fetched.heap = m.heap ∧
    fetched.stack? = m.stack? ∧ fetched.process.frames.length = m.process.frames.length := by
  have hends : Ends fetch m (fun _ _ => True) fun _ _ => False := by
    obtain ⟨top, callers, hframes, hdecode⟩ := h
    unfold fetch Exec.frame
    simp only [ends_bind, ends_get, hframes, ends_pure, ends_liftExcept, hdecode, reduceCtorEq, false_implies,
      implies_true, and_true, Exec.note, ends_modify]
    rintro j -
    unfold Ends updateFrame Machine.note
    simp only [hframes]
  cases hfetch : fetch m with
  | error fault fetched => exact (hends.of_error hfetch).elim
  | ok j fetched =>
    obtain ⟨hreads, hheap, hprocess⟩ := fetch_past.of_ok hfetch
    obtain rfl := h.eq hreads
    refine ⟨fetched, rfl, hheap, ?_, ?_⟩
    · rw [stack?, hprocess, stack?, Process.past]
      cases m.process.frames <;> rfl
    · rw [hprocess, Process.past, List.length_modifyHead]

/-- The next instruction takes the message off the stack. -/
def Sends (m : Machine) (message : Message) : Prop :=
  ∃ kind count stack rest, m.Reads (.send kind count) ∧ m.stack? = some stack ∧ message.Tops m.heap kind count stack rest

theorem Sends.step_eq (h : m.Sends message) (ctx : Context) : ∃ sent,
    step ctx m = dispatch ctx message.receiver message.selector message.parent message.args sent ∧
      sent.heap = m.heap ∧ 0 < sent.process.frames.length ∧ sent.process.frames.length = m.process.frames.length := by
  obtain ⟨kind, count, stack, rest, hreads, hstack, htops⟩ := h
  obtain ⟨fetched, hfetch, hheap, hfetched, hlength⟩ := fetch_of_reads hreads
  rw [← hfetched] at hstack
  rw [← hheap] at htops
  obtain ⟨sent, hsent⟩ : ∃ sent, sent = (fetched.withStack rest).note
      (.sent fetched.process.id message.selector message.receiver) := ⟨_, rfl⟩
  have hmessage : Exec.message ctx kind count fetched = .ok message sent :=
    message_ok_iff.2 ⟨stack, rest, hstack, htops, hsent⟩
  have hframes : sent.process.frames.length = m.process.frames.length := by
    rw [hsent, ← hlength]
    exact length_withStack
  refine ⟨sent, ?_, by rw [hsent, ← hheap]; rfl, hframes ▸ hreads.pos, hframes⟩
  rw [Exec.step_eq, bind_of_ok hfetch, show execute ctx (.send kind count) = _ from send_eq kind count,
    bind_of_ok hmessage]

/-- The next instruction sends a message that calls no block and whose search ends in an assignment. -/
structure Targets (ctx : Context) (m : Machine) (message : Message) (holder : ObjectId) : Prop where
  sends : m.Sends message
  searches : called? m.heap message = none
  found : ∃ marker, message.found ctx.roots m.heap = .found holder marker ∧ behaviorOf m.heap marker = .assignment

/-- A send that comes to an assignment changes one slot of the object that holds the assignment, or else it fails. -/
theorem Targets.step_cases (h : Targets ctx m message holder) :
    (∃ arg k cache, message.args = [arg] ∧ m.heap.hasSlot holder (Selector.assigned message.selector) = true ∧
      step ctx m = .ok () k ∧ k.process.frames.length = m.process.frames.length ∧
      k.heap = (Heap.setSlot { m.heap with cache } holder (Selector.assigned message.selector)
        (m.heap.effective arg)).2) ∨
      (¬∃ arg, message.args = [arg] ∧ m.heap.hasSlot holder (Selector.assigned message.selector) = true) ∧
      ∃ fault k, step ctx m = .error fault k := by
  obtain ⟨sent, hstep, hheap, hpos, hlength⟩ := h.sends.step_eq ctx
  obtain ⟨marker, hfound, hmarker⟩ := h.found
  obtain ⟨searched, cache, hprocess, hsearched, hresolve⟩ := resolve_eq ctx message sent
  rw [hheap] at hsearched hresolve
  rw [hfound] at hresolve
  have hsearch : resolve ctx message.receiver message.selector message.parent sent = .ok (.found holder marker) searched := by
    rcases hresolve with hok | ⟨fault, -, hnot⟩
    · exact hok
    · exact absurd rfl (hnot holder marker)
  have hmarker' : behaviorOf searched.heap marker = .assignment := by
    rw [hsearched]
    exact hmarker
  have hframes : searched.process.frames ≠ [] := by
    rw [hprocess]
    exact List.ne_nil_of_length_pos hpos
  have hdispatch : step ctx m = apply ctx holder marker message.receiver message.selector message.args searched := by
    rw [hstep, dispatch_eq, get_bind, hheap, h.searches]
    exact bind_of_ok hsearch
  rw [hdispatch]
  rcases apply_assignment hframes hmarker' with ⟨arg, stack, hargs, hslot, happly⟩ | ⟨hnot, fault, happly⟩
  · refine .inl ⟨arg, _, cache, hargs, ?_, happly, ?_, ?_⟩
    · rw [hsearched] at hslot
      exact hslot
    · rw [length_withStack, hprocess, hlength]
    · rw [heap_withStack, hsearched]
      rfl
  · refine .inr ⟨?_, fault, searched, happly⟩
    rw [hsearched] at hnot
    exact hnot

/-- An instruction that adds a slot and succeeds edits the object below its operands and does nothing else to the
heap. -/
theorem Reads.addSlot_ok {kind : SlotKind} (h : m.Reads (.addSlot kind)) (hok : step ctx m = .ok () k) :
    ∃ arg named target rest name, m.stack? = some (arg :: named :: .ref target :: rest) ∧
      m.heap.text? named = some name ∧ k.process.frames.length = m.process.frames.length ∧
      k.heap = m.heap.restructure target (kind.edit name (m.heap.effective arg)).apply := by
  obtain ⟨fetched, hfetch, hheap, hstack, hlength⟩ := fetch_of_reads h
  rw [Exec.step_eq, bind_of_ok hfetch] at hok
  have hadd : addSlot ctx kind fetched = .ok () k := hok
  have hframes : fetched.process.frames ≠ [] := List.ne_nil_of_length_pos (hlength ▸ h.pos)
  obtain ⟨top, callers, hcons⟩ := List.exists_cons_of_ne_nil hframes
  obtain ⟨top', hcons', -⟩ := ((steady_addSlot kind).of_ok hadd).1.frames hcons
  have hadded := hadd
  rw [addSlot_eq] at hadded
  obtain ⟨⟨target, name, arg⟩, taken, haddition, hrest⟩ := bind_ok_iff.1 hadded
  cases target with
  | fixnum n => cases hrest
  | ref target =>
    obtain ⟨m', hadd', hm'⟩ := addSlot_of_addition kind hframes haddition
    rw [hadd] at hadd'
    cases hadd'
    obtain ⟨named, rest, hoperands, htext, -⟩ := addition_ok_iff.1 haddition
    rw [hstack] at hoperands
    rw [hheap] at htext hm'
    refine ⟨arg, named, target, rest, name, hoperands, htext, ?_, hm'⟩
    rw [← hlength, hcons, hcons', List.length_cons, List.length_cons]

theorem reads_of_edited? {id : ObjectId} (h : m.edited? ctx = some id) :
    ∃ kind k, m.Reads (.addSlot kind) ∧ step ctx m = .ok () k := by
  unfold edited? at h
  split at h
  · rename_i kind fetched hfetch
    obtain ⟨hreads, -, -⟩ := fetch_past.of_ok hfetch
    obtain ⟨fetched', hfetch', -, -, hlength⟩ := fetch_of_reads hreads
    rw [hfetch] at hfetch'
    cases hfetch'
    split at h
    · rename_i haddition
      obtain ⟨m', hadd, -⟩ := addSlot_of_addition kind (List.ne_nil_of_length_pos (hlength ▸ hreads.pos)) haddition
      refine ⟨kind, m', hreads, ?_⟩
      rw [Exec.step_eq, bind_of_ok hfetch]
      exact hadd
    · cases h
  · cases h

theorem targets_of_assigned? {id : ObjectId} (h : m.assigned? ctx = some id) :
    ∃ message k, Targets ctx m message id ∧ step ctx m = .ok () k := by
  unfold Machine.assigned? at h
  split at h
  · rename_i kind count fetched hfetch
    obtain ⟨hreads, -, -⟩ := fetch_past.of_ok hfetch
    obtain ⟨fetched', hfetch', hheap, hstack, hlength⟩ := fetch_of_reads hreads
    rw [hfetch] at hfetch'
    cases hfetch'
    split at h
    · rename_i message sent hmessage
      obtain ⟨stack, rest, hoperands, htops, hsent⟩ := message_ok_iff.1 hmessage
      have hheap' : sent.heap = m.heap := by
        rw [hsent, ← hheap]
        rfl
      rw [hstack] at hoperands
      rw [hheap] at htops
      obtain ⟨hcalled, hfound, arg, hargs, hslot⟩ := assigned?_eq_some h
      rw [hheap'] at hcalled hfound hslot
      have htargets : Targets ctx m message id := ⟨⟨kind, count, stack, rest, hreads, hoperands, htops⟩, hcalled, hfound⟩
      rcases htargets.step_cases with ⟨arg', k, cache, -, -, hok, -⟩ | ⟨hnot, -⟩
      · exact ⟨message, k, htargets, hok⟩
      · exact absurd ⟨arg, hargs, hslot⟩ hnot
    · cases h
  · cases h

end Machine

/-! ## Sessions -/

namespace Session

open Exec

variable {plain : Prop} {w : Session}

theorem Reachable.stack_isLive (hw : w.Reachable plain) {process : Process} (hprocess : process ∈ w.scheduler.pool)
    {stack : List Value} (hstack : (w.scheduler.machine process).stack? = some stack) {id : ObjectId}
    (hid : .ref id ∈ stack) : w.heap.isLive id = true := by
  obtain ⟨top, callers, hframes, rfl⟩ := Machine.stack?_eq_some.1 hstack
  have hmem : top ∈ process.frames := by
    rw [show process.frames = _ from hframes]
    exact List.mem_cons_self
  have hmem' : top ∈ process.allFrames := by simp [Process.allFrames, hmem]
  have hsound := hw.sound.frame hprocess hmem'
  rcases hsound.stack _ hid with heq | haccepts
  · exact (hsound.activation id heq.symm).1
  · exact haccepts.isLive

/-- Objects that are there before and after an instruction differ only where the instruction adds a slot or a parent or
sends a message that comes to an assignment, and then in one entry of one object. -/
theorem objects_of_advance (hw : w.Reachable plain) {process : Process} (hprocess : process ∈ w.scheduler.pool) :
    let ctx := w.scheduler.context
    let m := w.scheduler.machine process
    let m' := m.advance ctx
    (∀ kind k, m.Reads (.addSlot kind) → step ctx m = .ok () k →
      ∃ arg named target rest name, m.stack? = some (arg :: named :: .ref target :: rest) ∧
        m.heap.text? named = some name ∧
        m.heap.Amends target (kind.edit name (m.heap.effective arg)).onSlots
          (kind.edit name (m.heap.effective arg)).onParents m'.heap ∧
        m.heap.versionOf target < m'.heap.versionOf target) ∧
    (∀ message holder k, Machine.Targets ctx m message holder → step ctx m = .ok () k →
      ∃ arg, message.args = [arg] ∧
        (m.heap.object holder).slotEntries.has (Selector.assigned message.selector) = true ∧
        m.heap.Amends holder (Entries.assign (Selector.assigned message.selector) (m.heap.effective arg)) id m'.heap ∧
        (m'.heap.object holder).shape = (m.heap.object holder).shape) ∧
    ((¬∃ kind k, m.Reads (.addSlot kind) ∧ step ctx m = .ok () k) →
      (¬∃ message holder k, Machine.Targets ctx m message holder ∧ step ctx m = .ok () k) →
      ∀ id, m.heap.isLive id = true → m'.heap.isLive id = true → m'.heap.object id = m.heap.object id) ∧
    (m'.process.frames.length ≠ m.process.frames.length →
      ∀ id, m.heap.isLive id = true → m'.heap.isLive id = true → m'.heap.object id = m.heap.object id) := by
  intro ctx m m'
  obtain ⟨tidy, hp, -⟩ := hw.arises.packed
  have hm' {k : Machine} (hok : step ctx m = .ok () k) : m' = k := by
    show m.advance ctx = k
    rw [Machine.advance, hok]
  have hsame (hadds : ¬∃ kind k, m.Reads (.addSlot kind) ∧ step ctx m = .ok () k)
      (hassigns : ¬∃ message holder k, Machine.Targets ctx m message holder ∧ step ctx m = .ok () k) (id : ObjectId)
      (hlive : m.heap.isLive id = true) (hlive' : m'.heap.isLive id = true) : m'.heap.object id = m.heap.object id := by
    have htouches : Heap.Touches ⟨[], fun _ => False, fun _ => False⟩ m.heap m'.heap := by
      refine Machine.touches_advance (fun id hid => hassigns ?_) fun id hid => hadds ?_
      · obtain ⟨message, k, htargets, hok⟩ := Machine.targets_of_assigned? hid
        exact ⟨message, id, k, htargets, hok⟩
      · exact Machine.reads_of_edited? hid
    have hget := htouches.get?_of_some tidy (.of_get? (Heap.get?_object hlive)) not_false not_false
      (Heap.get?_object hlive')
    exact (Heap.object_of_get? hget).symm
  refine ⟨fun kind k hreads hok => ?_, fun message holder k htargets hok => ?_, hsame, fun hlength => ?_⟩
  · obtain ⟨arg, named, target, rest, name, hstack, htext, -, hheap⟩ := hreads.addSlot_ok hok
    have hlive : m.heap.isLive target = true := hw.stack_isLive hprocess hstack (by simp)
    refine ⟨arg, named, target, rest, name, hstack, htext, ?_⟩
    rw [hm' hok, hheap]
    refine ⟨Heap.amends_restructure hlive hp _, ?_⟩
    rw [Heap.versionOf_restructure hlive]
    exact Nat.lt_succ_of_le (hw.sound.heap.coherent.versionOf_le target)
  · rcases htargets.step_cases with ⟨arg, k', cache, hargs, hslot, hok', -, hheap⟩ | ⟨-, fault, k', herror⟩
    · rw [hok] at hok'
      cases hok'
      have hcached : Heap.hasSlot { m.heap with cache } holder (Selector.assigned message.selector) = true := hslot
      have hpacked : Heap.All Object.Packed { m.heap with cache } := hp
      have hset := Heap.amends_setSlot hpacked hcached (m.heap.effective arg)
      rw [hm' hok, hheap]
      exact ⟨arg, hargs, ((hp.packed_object holder).slots.has _).trans hslot, ⟨hset.1.edited, hset.1.others⟩, hset.2⟩
    · rw [hok] at herror
      cases herror
  · refine hsame ?_ ?_
    · rintro ⟨kind, k, hreads, hok⟩
      obtain ⟨arg, named, target, rest, name, -, -, heq, -⟩ := hreads.addSlot_ok hok
      exact hlength (hm' hok ▸ heq)
    · rintro ⟨message, holder, k, htargets, hok⟩
      rcases htargets.step_cases with ⟨arg, k', cache, -, -, hok', heq, -⟩ | ⟨-, fault, k', herror⟩
      · rw [hok] at hok'
        cases hok'
        exact hlength (hm' hok ▸ heq)
      · rw [hok] at herror
        cases herror

/-- An object gets a slot and an assignment for it, which is then sent a value. -/
def assigningOnce : List Line :=
  [.push (.object .plain [] none), .push (.text "x"), .push (.int 1), .addSlot .normal, .push (.text "x:"),
    .pushAssignment, .addSlot .normal, .push (.int 2)] ++ Demo.send "x:" .keyword 1

theorem objects_of_advance_rehearsal :
    ∃ (w : Session) (process : Process) (message : Message) (holder : ObjectId) (arg : Value),
      w.Reachable True ∧ process ∈ w.scheduler.pool ∧
      Machine.Targets w.scheduler.context (w.scheduler.machine process) message holder ∧
      w.heap.Amends holder (Entries.assign (Selector.assigned message.selector) (w.heap.effective arg)) id
        ((w.scheduler.machine process).advance w.scheduler.context).heap := by
  have hrehearsal : ((rehearsal assigningOnce 9).any fun w => w.scheduler.pool.any fun process =>
      ((w.scheduler.machine process).assigned? w.scheduler.context).isSome) = true := by
    decide +kernel
  obtain ⟨w, hw, hcheck⟩ := (Option.any_eq_true _ _).1 hrehearsal
  obtain ⟨process, hprocess, hassigned⟩ := List.any_eq_true.1 hcheck
  obtain ⟨holder, hholder⟩ := Option.isSome_iff_exists.1 hassigned
  obtain ⟨message, k, htargets, hok⟩ := Machine.targets_of_assigned? hholder
  have hreachable : w.Reachable True := reachable_of_rehearsal hw
  obtain ⟨arg, -, -, hamends, -⟩ := (objects_of_advance hreachable hprocess).2.1 message holder k htargets hok
  exact ⟨w, process, message, holder, arg, hreachable, hprocess, htargets, hamends⟩

end Session

end ProtoVm
