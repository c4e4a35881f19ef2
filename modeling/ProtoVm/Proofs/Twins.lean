import ProtoVm.Proofs.Lockstep
import ProtoVm.Proofs.Moves

/-!
# Machines in lockstep

A machine that runs a process on its own and one that runs the same process on a shared heap are twins
while their states mirror each other. One instruction keeps them twins, as long as it finds room in both heaps
and changes no object that is shared.
-/

namespace ProtoVm

structure Machine.Twin (σ : Setting) (R : Pairing) (m₀ m : Machine) : Prop where
  heap : Mirror σ R m₀.heap m.heap
  process : Process.Match σ R m₀.process m.process

theorem Machine.Twin.withFrames {σ : Setting} {R : Pairing} {m₀ m : Machine} (hT : m₀.Twin σ R m)
    {frames frames' : List Frame} (hframes : List.Forall₂ (Frame.Match σ R) frames frames') :
    Machine.Twin σ R { m₀ with process := { m₀.process with frames } }
      { m with process := { m.process with frames := frames' } } :=
  ⟨hT.heap, hT.process.lone_eq, hT.process.shared_eq, hframes, hT.process.parked, hT.process.outcome⟩

abbrev Ground.context (g : Ground) (maxFrames : Nat) : Context := ⟨g.roots, maxFrames⟩

/-- Earlier searches do not mislead a search. -/
def Heap.Clear (roots : Roots) (heap : Heap) : Prop :=
  ∀ id name, (heap.slotLookup roots id name).result = heap.plainLookup roots id name

theorem Heap.object_of_not_isLive {heap : Heap} {id : ObjectId} (h : heap.isLive id = false) : heap.object id = {} := by
  rw [Heap.isLive, Option.isSome_eq_false_iff, Option.isNone_iff_eq_none] at h
  rw [Heap.object, h, Option.getD_none]

/-- Nothing is remembered under the shape of empty objects for a search that has nowhere to go. -/
theorem Heap.recalled?_of_not_isLive {copies : List Object} {heap : Heap} {roots : Roots} (hc : heap.Coherent copies)
    {id : ObjectId} (hid : heap.isLive id = false) {name : String} {entry : CachedSlot}
    (hs : entry.Sound heap roots (heap.object id).shape.id name) :
    heap.recalled? (heap.object id) name entry = none := by
  rw [Heap.object_of_not_isLive hid] at hs ⊢
  unfold Heap.recalled?
  refine if_neg fun hvalid => ?_
  simp only [CachedSlot.isValidFor, Bool.and_eq_true, beq_iff_eq, List.all_eq_true] at hvalid
  obtain ⟨⟨⟨hscope, hparents⟩, -⟩, hcheckpoints⟩ := hvalid
  obtain ⟨start, value, hstart, hshape, hscope', hparents', -, hresult⟩ := hs.replays hcheckpoints
  obtain ⟨catalogue, hzero, hfits⟩ := hc.catalogued
  have hown := (hfits _ (.of_get? (get?_object hstart))).own
  rw [hshape, hzero, Prod.mk.injEq] at hown
  have hslot : (heap.object start).slot? name = none := by simp [Object.slot?, ← hown.1, Layout.index?]
  have hedges : heap.neighbours roots start = [] := by
    simp [neighbours, Object.edges, hscope', hparents', hscope, hparents]
  rw [walk, walkFrom_cons_of_none hslot, hedges, enqueue, walkFrom] at hresult
  cases hresult

theorem Heap.clear {copies : List Object} {heap : Heap} {roots : Roots} (hc : heap.Coherent copies)
    (hr : heap.Remembers roots) : heap.Clear roots := by
  intro id name
  cases hlive : heap.isLive id with
  | true => exact slotLookup_result hc hr hlive name
  | false =>
    have hnear : heap.nearSlot? roots id name = none := by
      simp [nearSlot?, object_of_not_isLive hlive, Object.slot?, Layout.index?]
    unfold slotLookup plainLookup
    simp only [hnear]
    unfold parentLookup
    simp only
    split
    · rename_i hentry
      obtain ⟨entry, hcached, hrecalled⟩ := Option.bind_eq_some_iff.1 hentry
      rw [recalled?_of_not_isLive hc hlive (hr _ name entry (mem_cache_of_cached? hcached))] at hrecalled
      cases hrecalled
    · split <;> rfl

namespace Exec

/-- An operation of twins. -/
abbrev Sim {α : Type} (σ : Setting) : Pairing → Exec α → Exec α → Machine → Machine →
    (Pairing → α → Machine → α → Machine → Prop) → Prop := ProtoVm.Sim (Machine.Twin σ) Machine.heap

/-- Nothing has happened to the heaps. -/
structure Rests (R : Pairing) (m₀ m : Machine) (R' : Pairing) (m₀' m' : Machine) : Prop where
  pairing_eq : R' = R
  lone_eq : m₀'.heap = m₀.heap
  shared_eq : m'.heap = m.heap

variable {σ : Setting} {R : Pairing} {m₀ m : Machine} {maxFrames : Nat}

theorem Rests.trans {R' R'' : Pairing} {m₀' m' m₀'' m'' : Machine} (h : Rests R m₀ m R' m₀' m')
    (h' : Rests R' m₀' m' R'' m₀'' m'') : Rests R m₀ m R'' m₀'' m'' :=
  ⟨h'.pairing_eq.trans h.pairing_eq, h'.lone_eq.trans h.lone_eq, h'.shared_eq.trans h.shared_eq⟩

/-! ## Frames and operands -/

theorem sim_note (hT : m₀.Twin σ R m) (event₀ event : ProcessId → Event) :
    Sim σ R (note event₀) (note event) m₀ m fun R' _ m₀' _ m' => Rests R m₀ m R' m₀' m' :=
  .modify (.refl R _) ⟨hT.heap, hT.process⟩ ⟨rfl, rfl, rfl⟩

theorem sim_onHeap {α : Type} {x₀ x : HeapM α} {P : Pairing → α → Heap → α → Heap → Prop} (hT : m₀.Twin σ R m)
    (hx : Heap.Sim σ R x₀ x m₀.heap m.heap P) :
    Sim σ R (onHeap x₀) (onHeap x) m₀ m fun R' a₀ m₀' a m' => P R' a₀ m₀'.heap a m'.heap := by
  rcases m₀ with ⟨heap₀, process₀, journal₀⟩
  rcases m with ⟨heap, process, journal⟩
  unfold Sim ProtoVm.Sim onHeap
  unfold Heap.Sim ProtoVm.Sim at hx
  simp only at hx ⊢
  generalize x₀ heap₀ = result₀ at hx ⊢
  generalize x heap = result at hx ⊢
  cases hx with
  | ok h =>
    obtain ⟨R', hp, hm, hP⟩ := h
    exact .ok ⟨R', hp, ⟨hm, hT.process.mono hp.le⟩, hP⟩
  | error h =>
    obtain ⟨R', hp, hm⟩ := h
    exact .error ⟨R', hp, hm, hT.process.mono hp.le⟩
  | loneFull => exact .loneFull
  | sharedFull => exact .sharedFull

theorem reads_frame (hT : m₀.Twin σ R m) : Reads frame frame m₀ m (Frame.Match σ R) := by
  have hframes := hT.process.frames
  refine .get ?_
  generalize m₀.process.frames = frames at hframes
  generalize m.process.frames = frames' at hframes
  cases hframes with
  | nil => exact .throw
  | cons h _ => exact .pure h

theorem sim_updateFrame (hT : m₀.Twin σ R m) {edit₀ edit : Frame → Frame}
    (hedit : ∀ frame frame', Frame.Match σ R frame frame' → Frame.Match σ R (edit₀ frame) (edit frame')) :
    Sim σ R (updateFrame edit₀) (updateFrame edit) m₀ m fun R' _ m₀' _ m' => Rests R m₀ m R' m₀' m' := by
  have hframes := hT.process.frames
  unfold Sim ProtoVm.Sim updateFrame
  cases hlone : m₀.process.frames <;> cases hshared : m.process.frames <;> rw [hlone, hshared] at hframes <;>
    cases hframes
  · exact .error ⟨R, .refl R _, hT⟩
  · rename_i hframe hrest
    exact .ok ⟨R, .refl R _, hT.withFrames (.cons (hedit _ _ hframe) hrest), rfl, rfl, rfl⟩

theorem sim_push (hT : m₀.Twin σ R m) {value value' : Value} (hv : Value.Match R value value') :
    Sim σ R (push value) (push value') m₀ m fun R' _ m₀' _ m' => Rests R m₀ m R' m₀' m' :=
  sim_updateFrame hT fun _ _ h => h.push hv

theorem sim_pop (hT : m₀.Twin σ R m) :
    Sim σ R pop pop m₀ m fun R' value m₀' value' m' => Rests R m₀ m R' m₀' m' ∧ Value.Match R' value value' := by
  refine (reads_frame hT).bind hT fun frame frame' hframe _ => ?_
  have hstack := hframe.stack
  generalize frame.stack = stack at hstack
  generalize frame'.stack = stack' at hstack
  cases hstack with
  | nil => exact .throw hT
  | cons hv hrest =>
    refine (sim_updateFrame hT fun _ _ h => h.withStack hrest).bind fun R' _ m₀' _ m' _ hT' hrests _ => ?_
    exact .pure hT' ⟨hrests, hrests.pairing_eq ▸ hv⟩

theorem sim_popOperands (hT : m₀.Twin σ R m) (argc : Nat) :
    Sim σ R (popOperands argc) (popOperands argc) m₀ m fun R' operands m₀' operands' m' => Rests R m₀ m R' m₀' m' ∧
      Value.Match R' operands.1 operands'.1 ∧ List.Forall₂ (Value.Match R') operands.2 operands'.2 := by
  refine (reads_frame hT).bind hT fun frame frame' hframe _ => ?_
  have hargs := List.rel_reverse (List.forall₂_take argc hframe.stack)
  have hstack := List.forall₂_drop argc hframe.stack
  generalize frame.stack.drop argc = stack at hstack
  generalize frame'.stack.drop argc = stack' at hstack
  cases hstack with
  | nil => exact .throw hT
  | cons hv hrest =>
    refine (sim_updateFrame hT fun _ _ h => h.withStack hrest).bind fun R' _ m₀' _ m' _ hT' hrests _ => ?_
    obtain rfl := hrests.pairing_eq
    exact .pure hT' ⟨hrests, hv, hargs⟩

theorem reads_effective (hT : m₀.Twin σ R m) {value value' : Value} (hv : Value.Match R value value') :
    Reads (effective value) (effective value') m₀ m (Value.Match R) := .get (.pure (hT.heap.effective hv))

theorem reads_name (maxFrames : Nat) (hT : m₀.Twin σ R m) {value value' : Value} (hv : Value.Match R value value') :
    Reads (name (σ.context maxFrames) value) (name (σ.context maxFrames) value') m₀ m (· = ·) := by
  refine .get ?_
  simp only [hT.heap.text?_eq hv, hT.heap.kindOf_eq hv]
  split
  · exact .pure rfl
  · exact .throw

theorem reads_names (hT : m₀.Twin σ R m) {value value' : Option Value} (hv : Option.Rel (Value.Match R) value value') :
    Reads (value.mapM (name (σ.context maxFrames))) (value'.mapM (name (σ.context maxFrames))) m₀ m (· = ·) := by
  cases hv with
  | none => exact .pure rfl
  | some hv =>
    rcases reads_name maxFrames hT hv with ⟨s, s', hlone, hshared, rfl⟩ | ⟨fault, hlone, hshared⟩
    · exact .inl ⟨some s, some s, bind_of_ok hlone, bind_of_ok hshared, rfl⟩
    · exact .inr ⟨fault, bind_of_error hlone, bind_of_error hshared⟩

/-! ## Searches -/

theorem sim_lookup (hT : m₀.Twin σ R m) (hclear₀ : m₀.heap.Clear σ.roots) (hclear : m.heap.Clear σ.roots)
    {value value' : Value} (hv : Value.Match R value value') (name : String) :
    Sim σ R (lookup (σ.context maxFrames) value name) (lookup (σ.context maxFrames) value' name) m₀ m
      fun R' result _ result' m' => m.heap.SameStore m'.heap ∧ Lookup.Match R' result result' := by
  have hstart := hT.heap.startOf hv
  have hsame := m.heap.sameStore_slotLookup σ.roots (σ.roots.startOf value') name
  obtain ⟨hm, hp⟩ := hT.heap.aside (m₀.heap.sameStore_slotLookup σ.roots (σ.roots.startOf value) name) hsame
  have hresult := hT.heap.plainLookup hstart name
  rw [← hclear₀, ← hclear] at hresult
  exact .ok ⟨R, hp, ⟨hm, hT.process⟩, hsame, hresult⟩

theorem sim_resolve (hT : m₀.Twin σ R m) (hclear₀ : m₀.heap.Clear σ.roots) (hclear : m.heap.Clear σ.roots)
    {receiver receiver' : Value} (hreceiver : Value.Match R receiver receiver') (selector : String)
    (parent : Option String) :
    Sim σ R (resolve (σ.context maxFrames) receiver selector parent)
      (resolve (σ.context maxFrames) receiver' selector parent) m₀ m
      fun R' result _ result' m' => m.heap.SameStore m'.heap ∧ Lookup.Match R' result result' := by
  cases parent with
  | none => exact sim_lookup hT hclear₀ hclear hreceiver selector
  | some parent =>
    have hresult := hT.heap.parentSlotLookup (hT.heap.startOf hreceiver) parent
    refine .get ?_
    generalize m₀.heap.parentSlotLookup σ.roots (σ.roots.startOf receiver) parent = result at hresult ⊢
    generalize m.heap.parentSlotLookup σ.roots (σ.roots.startOf receiver') parent = result' at hresult ⊢
    cases hresult with
    | missing => exact .throw hT
    | found _ hv => exact sim_lookup hT hclear₀ hclear hv selector
    | ambiguous => exact .throw hT

/-! ## Calls -/

theorem sim_activate (hT : m₀.Twin σ R m) {object object' : ObjectId} (hobject : R.pairs object object')
    {method method' : Method} (hmethod : Method.Match σ method method') (selector : String)
    {receiver receiver' lexical lexical' : Value} (hreceiver : Value.Match R receiver receiver')
    (hlexical : Value.Match R lexical lexical') {args args' : List Value}
    (hargs : List.Forall₂ (Value.Match R) args args') {kind kind' : FrameKind} (hkind : FrameKind.Match R kind kind') :
    Sim σ R (activate (σ.context maxFrames) object method selector receiver lexical args kind)
      (activate (σ.context maxFrames) object' method' selector receiver' lexical' args' kind') m₀ m
      fun _ _ _ _ _ => True := by
  have hnil : Value.Match R (.ref σ.roots.nil) (.ref σ.roots.nil) := .ref (hT.heap.root (by simp [Roots.ids]))
  unfold activate Method.arity
  rw [hmethod.params_eq, ← hargs.length_eq]
  refine .ite (fun _ => .throw hT) fun _ => .get ?_
  simp only [Process.depth, ← hT.process.frames.length_eq]
  refine .ite (fun _ => .throw hT) fun _ => ?_
  have hrecords := Heap.sim_newRecords hT.heap hobject hmethod (hT.heap.effective_all hargs) hnil hlexical hreceiver
  refine (sim_onHeap hT hrecords).bind fun R₁ records m₀₁ records' m₁ hp₁ hT₁ hrecords _ => ?_
  refine (sim_note hT₁ _ _).bind fun R₂ _ m₀₂ _ m₂ _ hT₂ hrests _ => ?_
  obtain rfl := hrests.pairing_eq
  have hkind₁ : FrameKind.Match R₂ kind kind' := by
    cases hkind with
    | call => exact .call
    | handler h => exact .handler (h.mono hp₁.le)
  refine .modify (.refl R₂ _) (hT₂.withFrames (.cons ?_ hT₂.process.frames)) trivial
  exact ⟨hmethod.body_eq, hmethod.written, rfl, .nil, .ref hrecords.1, hreceiver.mono hp₁.le, .none, hkind₁,
    hrecords.2, rfl⟩

theorem sim_callBlock (hT : m₀.Twin σ R m) {block block' : ObjectId} (hblock : R.pairs block block') (selector : String)
    {args args' : List Value} (hargs : List.Forall₂ (Value.Match R) args args') {kind kind' : FrameKind}
    (hkind : FrameKind.Match R kind kind') :
    Sim σ R (callBlock (σ.context maxFrames) block selector args kind)
      (callBlock (σ.context maxFrames) block' selector args' kind') m₀ m fun _ _ _ _ _ => True := by
  have hobject := hT.heap.object hblock
  have hmethod := hobject.method?
  have hscope := hobject.scope
  have hnil : Value.Match R (.ref σ.roots.nil) (.ref σ.roots.nil) := .ref (hT.heap.root (by simp [Roots.ids]))
  refine .get ?_
  simp only [hT.heap.kindOf_eq (.ref hblock)]
  generalize (m₀.heap.object block).shape.method? = method at hmethod ⊢
  generalize (m.heap.object block').shape.method? = method' at hmethod ⊢
  cases hmethod with
  | none => exact .throw hT
  | some hmethod =>
    have hlexical : Value.Match R ((m₀.heap.object block).scope.getD (.ref σ.roots.nil))
        ((m.heap.object block').scope.getD (.ref σ.roots.nil)) := by
      generalize (m₀.heap.object block).scope = scope at hscope ⊢
      generalize (m.heap.object block').scope = scope' at hscope ⊢
      cases hscope with
      | none => exact hnil
      | some hv => exact hv
    exact sim_activate hT hblock hmethod selector (hT.heap.effective hlexical) hlexical hargs hkind

end Exec

namespace Machine

variable {σ : Setting} {R : Pairing} {m₀ m : Machine}

/-- Both machines give frames up. -/
theorem Twin.release (hT : m₀.Twin σ R m) {frames frames' : List Frame}
    (hframes : List.Forall₂ (Frame.Match σ R) frames frames') :
    (m₀.release frames).Twin σ R (m.release frames') ∧ R.Passes m.heap R (m.release frames').heap := by
  have hids := List.rel_flatMap hframes fun _ _ h => h.releasable
  obtain ⟨hm, hp⟩ := hT.heap.releaseAll hids
  exact ⟨⟨hm, hT.process⟩, hp⟩

theorem Twin.unwind (hT : m₀.Twin σ R m) : m₀.unwind.Twin σ R m.unwind ∧ R.Passes m.heap R m.unwind.heap := by
  obtain ⟨hT', hp⟩ := hT.release hT.process.allFrames
  exact ⟨⟨hT'.heap, hT.process.lone_eq, hT.process.shared_eq, .nil, .nil, hT.process.outcome⟩, hp⟩

theorem Twin.conclude (maxFrames : Nat) (hT : m₀.Twin σ R m) {value value' : Value} (hv : Value.Match R value value')
    {outcome outcome' : String → Outcome} (ho : ∀ display, Outcome.Match (outcome display) (outcome' display)) :
    (m₀.conclude (σ.context maxFrames) value outcome).Twin σ R (m.conclude (σ.context maxFrames) value' outcome') ∧
      R.Passes m.heap R (m.conclude (σ.context maxFrames) value' outcome').heap := by
  obtain ⟨hT', hp⟩ := hT.unwind
  refine ⟨⟨hT'.heap, hT'.process.lone_eq, hT'.process.shared_eq, .nil, .nil, .some ?_⟩, hp⟩
  rw [hT'.heap.display_eq hv]
  exact ho _

theorem Twin.finish (maxFrames : Nat) (hT : m₀.Twin σ R m) {value value' : Value} (hv : Value.Match R value value') :
    (m₀.finish (σ.context maxFrames) value).Twin σ R (m.finish (σ.context maxFrames) value') ∧
      R.Passes m.heap R (m.finish (σ.context maxFrames) value').heap :=
  hT.conclude maxFrames hv fun _ => ⟨rfl, rfl, rfl⟩

theorem Twin.finishWithError (maxFrames : Nat) (hT : m₀.Twin σ R m) {value value' : Value}
    (hv : Value.Match R value value') (cause : Option Fault) :
    (m₀.finishWithError (σ.context maxFrames) value cause).Twin σ R
        (m.finishWithError (σ.context maxFrames) value' cause) ∧
      R.Passes m.heap R (m.finishWithError (σ.context maxFrames) value' cause).heap :=
  hT.conclude maxFrames hv fun _ => ⟨rfl, rfl, rfl⟩

end Machine

namespace Exec

variable {σ : Setting} {R : Pairing} {m₀ m : Machine} {maxFrames : Nat}

theorem sim_leave (hT : m₀.Twin σ R m) : Sim σ R leave leave m₀ m fun R' _ _ _ _ => R' = R := by
  have hframes := hT.process.frames
  cases hlone : m₀.process.frames <;> cases hshared : m.process.frames <;> rw [hlone, hshared] at hframes <;>
    cases hframes
  · refine Agrees.ok ⟨R, ?_, ?_, rfl⟩ <;> simp only [hlone, hshared]
    · exact .refl R _
    · exact hT
  · rename_i hframe hrest
    obtain ⟨hT', hp⟩ := (hT.withFrames hrest).release (.cons hframe .nil)
    refine Agrees.ok ⟨R, ?_, ?_, rfl⟩ <;> simp only [hlone, hshared]
    · exact hp
    · exact hT'

theorem sim_returnTop (hT : m₀.Twin σ R m) :
    Sim σ R (returnTop (σ.context maxFrames)) (returnTop (σ.context maxFrames)) m₀ m fun _ _ _ _ _ => True := by
  refine (reads_frame hT).bind hT fun frame frame' hframe _ => ?_
  have hkind := hframe.kind
  generalize frame.kind = kind at hkind
  generalize frame'.kind = kind' at hkind
  cases hkind with
  | handler herror =>
    refine (sim_leave hT).bind fun R₁ _ m₀₁ _ m₁ _ hT₁ heq _ => ?_
    subst heq
    refine (sim_note hT₁ _ _).bind fun R₂ _ m₀₂ _ m₂ _ hT₂ hrests _ => ?_
    obtain rfl := hrests.pairing_eq
    obtain ⟨hT₃, hp⟩ := hT₂.finishWithError maxFrames herror none
    exact .modify hp hT₃ trivial
  | call =>
    have hv : Value.Match R (frame.stack.head?.getD (.ref σ.roots.nil))
        (frame'.stack.head?.getD (.ref σ.roots.nil)) := by
      have hstack := hframe.stack
      generalize frame.stack = stack at hstack ⊢
      generalize frame'.stack = stack' at hstack ⊢
      cases hstack with
      | nil => exact .ref (hT.heap.root (by simp [Roots.ids]))
      | cons hv _ => exact hv
    refine (reads_effective hT hv).bind hT fun value value' hv _ => ?_
    refine (sim_leave hT).bind fun R₁ _ m₀₁ _ m₁ _ hT₁ heq _ => .get ?_
    subst heq
    have hempty : m₁.process.frames.isEmpty = m₀₁.process.frames.isEmpty := by
      have hframes := hT₁.process.frames
      generalize m₀₁.process.frames = frames at hframes ⊢
      generalize m₁.process.frames = frames' at hframes ⊢
      cases hframes <;> rfl
    rw [hempty]
    split
    · obtain ⟨hT₂, hp⟩ := hT₁.finish maxFrames hv
      exact .modify hp hT₂ trivial
    · exact (sim_push hT₁ hv).mono fun _ _ _ _ _ _ _ _ => trivial

/-! ## Errors -/

theorem sim_suspend (hT : m₀.Twin σ R m) :
    Sim σ R suspend suspend m₀ m fun R' index m₀' index' m' => Rests R m₀ m R' m₀' m' ∧ index' = index := by
  have hlength := hT.process.parked.length_eq
  have hframes : Option.Rel (List.Forall₂ (Frame.Match σ R)) (some m₀.process.frames) (some m.process.frames) :=
    .some hT.process.frames
  refine Agrees.ok ⟨R, .refl R _, ⟨hT.heap, ?_⟩, ⟨rfl, rfl, rfl⟩, hlength.symm⟩
  exact ⟨hT.process.lone_eq, hT.process.shared_eq, .nil, List.rel_append hT.process.parked (.cons hframes .nil),
    hT.process.outcome⟩

theorem block?_rel (hT : m₀.Twin σ R m) {value value' : Value} (hv : Value.Match R value value') :
    Option.Rel R.pairs (m₀.heap.block? value) (m.heap.block? value') := by
  cases hv with
  | fixnum n => exact .none
  | ref hab =>
    have hobject := hT.heap.object hab
    simp only [Heap.block?, Value.toId?, Option.bind_eq_bind, Option.bind_some, hobject.isBlock_eq,
      hobject.isActivation_eq]
    split
    · exact .some hab
    · exact .none

/-- Both processes have a handler that can run, or none of them has. -/
theorem handlerBlock?_rel (hT : m₀.Twin σ R m) :
    Option.Rel R.pairs (m₀.process.handler?.bind m₀.heap.block?) (m.process.handler?.bind m.heap.block?) := by
  have hhandler := hT.process.handler?
  generalize m₀.process.handler? = handler at hhandler ⊢
  generalize m.process.handler? = handler' at hhandler ⊢
  cases hhandler with
  | none => exact .none
  | some hv => exact block?_rel hT hv

theorem sim_raise (hT : m₀.Twin σ R m) {value value' : Value} (hv : Value.Match R value value') (cause : Option Fault) :
    Sim σ R (raise (σ.context maxFrames) value cause) (raise (σ.context maxFrames) value' cause) m₀ m
      fun _ _ _ _ _ => True := by
  have hblock := handlerBlock?_rel hT
  refine .get ?_
  generalize m₀.process.handler?.bind m₀.heap.block? = block at hblock ⊢
  generalize m.process.handler?.bind m.heap.block? = block' at hblock ⊢
  cases hblock with
  | none =>
    refine (sim_note hT _ _).bind fun R₁ _ m₀₁ _ m₁ _ hT₁ hrests _ => ?_
    obtain rfl := hrests.pairing_eq
    obtain ⟨hT₂, hp⟩ := hT₁.finishWithError maxFrames hv cause
    exact .modify hp hT₂ trivial
  | @some block block' hblock =>
    have harity : ((m.heap.object block').shape.method?.map (·.arity)).getD 0 =
        ((m₀.heap.object block).shape.method?.map (·.arity)).getD 0 := by
      have hmethod := (hT.heap.object hblock).method?
      generalize (m₀.heap.object block).shape.method? = method at hmethod ⊢
      generalize (m.heap.object block').shape.method? = method' at hmethod ⊢
      cases hmethod with
      | none => rfl
      | some h => simp [Method.arity, h.params_eq]
    simp only [harity]
    refine (sim_suspend hT).bind fun R₁ index m₀₁ index' m₁ _ hT₁ hrests _ => ?_
    obtain ⟨hrests, rfl⟩ := hrests
    obtain rfl := hrests.pairing_eq
    have htoken : Object.Match σ R₁ { payload := .token m₀.process.id index' }
        { payload := .token m.process.id index' } := by
      rw [hT.process.lone_eq, hT.process.shared_eq]
      exact ⟨rfl, rfl, .data, .nil, .nil, .none, .token index'⟩
    refine (sim_onHeap hT₁ (Heap.sim_allocate hT₁.heap htoken)).bind fun R₂ token m₀₂ token' m₂ hp₂ hT₂ htoken _ => ?_
    refine (sim_note hT₂ _ _).bind fun R₃ _ m₀₃ _ m₃ _ hT₃ hrests₃ _ => ?_
    obtain rfl := hrests₃.pairing_eq
    refine sim_callBlock hT₃ (Pairing.pairs_mono hp₂.le hblock) _ (List.forall₂_take _ ?_) (.handler (hv.mono hp₂.le))
    exact .cons (hv.mono hp₂.le) (.cons (.ref (.inl htoken.1)) .nil)

/-- A token stands for a stack of the process in both runs or in none. -/
theorem token?_rel (hT : m₀.Twin σ R m) {token token' : Value} (htoken : Value.Match R token token') (index : Nat) :
    m.heap.token? token' = some (m.process.id, index) ↔ m₀.heap.token? token = some (m₀.process.id, index) := by
  have hobject := hT.heap.object? htoken
  rw [hT.process.lone_eq, hT.process.shared_eq]
  unfold Heap.token?
  generalize m₀.heap.object? token = object at hobject ⊢
  generalize m.heap.object? token' = object' at hobject ⊢
  cases hobject with
  | none => exact iff_of_false nofun nofun
  | @some object object' ho =>
    have hpayload := ho.payload
    rcases object with ⟨shape, slots, parents, scope, payload⟩
    rcases object' with ⟨shape', slots', parents', scope', payload'⟩
    cases hpayload with
    | token index' => simp
    | foreign index' hlone hshared => simp [hlone, hshared]
    | _ => exact iff_of_false nofun nofun

theorem sim_restore (hT : m₀.Twin σ R m) {token token' value value' : Value} (htoken : Value.Match R token token')
    (hv : Value.Match R value value') :
    Sim σ R (restore token value) (restore token' value') m₀ m fun _ _ _ _ _ => True := by
  unfold Sim ProtoVm.Sim
  by_cases h : ∃ index frames, m₀.heap.token? token = some (m₀.process.id, index) ∧
      m₀.process.parked[index]? = some (some frames)
  · obtain ⟨index, frames, hlone, hparked⟩ := h
    have hparked' := rel_getElem? hT.process.parked index
    rw [hparked] at hparked'
    obtain ⟨frames', hframes', hframes⟩ : ∃ frames', m.process.parked[index]? = some (some frames') ∧
        List.Forall₂ (Frame.Match σ R) frames frames' := by
      generalize m.process.parked[index]? = parked at hparked' ⊢
      cases hparked' with
      | some h => cases h with
        | some h => exact ⟨_, rfl, h⟩
    rw [restore_of_token? hlone hparked, restore_of_token? ((token?_rel hT htoken index).2 hlone) hframes']
    obtain ⟨hT', hp⟩ := hT.release (List.rel_reverse hT.process.frames)
    have hT'' : Machine.Twin σ R
        { m₀.release m₀.process.frames.reverse with
          process := { m₀.process with parked := m₀.process.parked.set index none, frames }
          journal := .resumed m₀.process.id index :: m₀.journal }
        { m.release m.process.frames.reverse with
          process := { m.process with parked := m.process.parked.set index none, frames := frames' }
          journal := .resumed m.process.id index :: m.journal } :=
      ⟨hT'.heap, hT.process.lone_eq, hT.process.shared_eq, hframes, rel_set hT.process.parked index .none,
        hT.process.outcome⟩
    refine Agrees.mono (sim_push hT'' hv) (fun _ s₀ _ s₁ h => ?_) fun s₀ s₁ h => ?_
    · obtain ⟨R', hp', hT', -⟩ := h
      exact ⟨R', hp.trans hp', hT', trivial⟩
    · obtain ⟨R', hp', hT'⟩ := h
      exact ⟨R', hp.trans hp', hT'⟩
  · have h₀ (index : Nat) (frames : List Frame) (htoken : m₀.heap.token? token = some (m₀.process.id, index)) :
        m₀.process.parked[index]? ≠ some (some frames) := fun hparked => h ⟨index, frames, htoken, hparked⟩
    have h₁ (index : Nat) (frames : List Frame) (htoken' : m.heap.token? token' = some (m.process.id, index)) :
        m.process.parked[index]? ≠ some (some frames) := by
      intro hparked
      have hparked' := rel_getElem? hT.process.parked index
      rw [hparked] at hparked'
      have hlone := (token?_rel hT htoken index).1 htoken'
      generalize hp : m₀.process.parked[index]? = parked at hparked'
      cases hparked' with
      | some h => cases h with
        | some h => exact h₀ index _ hlone hp
    rw [restore_of_ne h₀, restore_of_ne h₁]
    exact .error ⟨R, .refl R _, hT⟩

/-! ## Sends -/

/-- An assignment changes the holder of the slot, which must be an object of the process. -/
theorem sim_assign (hT : m₀.Twin σ R m) {holder holder' : ObjectId} (hholder : R.pairs holder holder')
    (selector : String) {receiver receiver' : Value} (hreceiver : Value.Match R receiver receiver')
    {args args' : List Value} (hargs : List.Forall₂ (Value.Match R) args args')
    (hown : ∀ value, args' = [value] → m.heap.hasSlot holder' (Selector.assigned selector) = true →
      ¬σ.Shares m.heap holder') :
    Sim σ R (assign holder selector receiver args) (assign holder' selector receiver' args') m₀ m
      fun _ _ _ _ _ => True := by
  have hlength := hargs.length_eq
  unfold assign
  rcases hargs with _ | ⟨hv, _ | ⟨hv', hrest⟩⟩
  · exact .throw hT
  · refine (reads_effective hT hv).bind hT fun value value' hv _ => ?_
    refine (reads_effective hT hreceiver).bind hT fun receiver receiver' hreceiver _ => ?_
    refine (sim_onHeap hT (Heap.sim_setSlot hT.heap hholder _ hv (hown _ rfl))).bind
      fun R' ok m₀' ok' m' _ hT' h _ => ?_
    obtain ⟨rfl, rfl⟩ := h
    cases ok' with
    | true => exact (sim_push hT' hreceiver).mono fun _ _ _ _ _ _ _ _ => trivial
    | false => exact .throw hT'
  · rw [hlength]
    exact .throw hT

theorem sim_follow (hT : m₀.Twin σ R m) {reply reply' : Reply} (hreply : Reply.Match R reply reply') :
    Sim σ R (follow (σ.context maxFrames) reply) (follow (σ.context maxFrames) reply') m₀ m fun _ _ _ _ _ => True := by
  cases hreply with
  | answer hv => exact (sim_push hT hv).mono fun _ _ _ _ _ _ _ _ => trivial
  | halt hv =>
    refine (sim_note hT _ _).bind fun R₁ _ m₀₁ _ m₁ _ hT₁ hrests _ => ?_
    obtain rfl := hrests.pairing_eq
    obtain ⟨hT₂, hp⟩ := hT₁.finish maxFrames hv
    exact .modify hp hT₂ trivial
  | raise hv => exact sim_raise hT hv none
  | handler hblock =>
    refine (sim_updateFrame hT fun frame frame' h => ?_).mono fun _ _ _ _ _ _ _ _ => trivial
    exact ⟨h.body_eq, h.written, h.ip_eq, .cons (.ref (hT.heap.root (by simp [Roots.ids]))) h.stack, h.activation,
      h.receiver, .some hblock, h.kind, h.records, h.captured_eq⟩
  | restore htoken hv => exact sim_restore hT htoken hv

theorem sim_callNative (hT : m₀.Twin σ R m) (native : Native) (selector : String) {receiver receiver' : Value}
    (hreceiver : Value.Match R receiver receiver') {args args' : List Value}
    (hargs : List.Forall₂ (Value.Match R) args args') :
    Sim σ R (callNative (σ.context maxFrames) native selector receiver args)
      (callNative (σ.context maxFrames) native selector receiver' args') m₀ m fun _ _ _ _ _ => True := by
  unfold callNative
  rw [← hargs.length_eq]
  refine .ite (fun _ => .throw hT) fun _ => ?_
  refine (reads_effective hT hreceiver).bind hT fun receiver receiver' hreceiver _ => .get ?_
  refine (sim_onHeap hT (Native.sim_run hT.heap native hreceiver (hT.heap.effective_all hargs))).bind
    fun R' reply m₀' reply' m' _ hT' hreply _ => ?_
  exact sim_follow hT' hreply

theorem behaviorOf_match (hT : m₀.Twin σ R m) {value value' : Value} (hv : Value.Match R value value') :
    Behavior.Match σ (behaviorOf m₀.heap value) (behaviorOf m.heap value') := by
  have hobject := hT.heap.object? hv
  unfold behaviorOf
  generalize m₀.heap.object? value = object at hobject
  generalize m.heap.object? value' = object' at hobject
  cases hobject with
  | none => exact .data
  | some ho =>
    simp only [ho.isActivation_eq]
    split
    · exact .data
    · exact ho.behavior

theorem sim_apply (hT : m₀.Twin σ R m) {holder holder' : ObjectId} (hholder : R.pairs holder holder')
    {value value' : Value} (hv : Value.Match R value value') {receiver receiver' : Value}
    (hreceiver : Value.Match R receiver receiver') (selector : String) {args args' : List Value}
    (hargs : List.Forall₂ (Value.Match R) args args')
    (hown : ∀ arg, behaviorOf m.heap value' = .assignment → args' = [arg] →
      m.heap.hasSlot holder' (Selector.assigned selector) = true → ¬σ.Shares m.heap holder') :
    Sim σ R (apply (σ.context maxFrames) holder value receiver selector args)
      (apply (σ.context maxFrames) holder' value' receiver' selector args') m₀ m fun _ _ _ _ _ => True := by
  have hbehavior := behaviorOf_match hT hv
  have hanswer : Sim σ R (do push (← effective value)) (do push (← effective value')) m₀ m fun _ _ _ _ _ => True :=
    (reads_effective hT hv).bind hT fun _ _ hv _ => (sim_push hT hv).mono fun _ _ _ _ _ _ _ _ => trivial
  refine .get ?_
  generalize behaviorOf m₀.heap value = behavior at hbehavior
  generalize behaviorOf m.heap value' = behavior' at hbehavior hown
  cases hbehavior with
  | data => exact hanswer
  | assignment => exact sim_assign hT hholder selector hreceiver hargs fun arg => hown arg rfl
  | native native => exact sim_callNative hT native selector hreceiver hargs
  | @method body params isBlock bindings bindings' hwritten =>
    have hmethod : Method.Match σ ⟨body, params, isBlock, bindings⟩ ⟨body, params, isBlock, bindings'⟩ :=
      ⟨rfl, rfl, rfl, hwritten⟩
    cases hv with
    | fixnum n => exact hanswer
    | ref hab =>
      cases isBlock with
      | true => exact hanswer
      | false =>
        refine (reads_effective hT hreceiver).bind hT fun receiver receiver' hreceiver _ => ?_
        exact sim_activate hT hab hmethod selector hreceiver hreceiver hargs .call

/-- The messages have matching operands. -/
structure Message.Match (R : Pairing) (message message' : Message) : Prop where
  receiver : Value.Match R message.receiver message'.receiver
  selector_eq : message'.selector = message.selector
  parent_eq : message'.parent = message.parent
  args : List.Forall₂ (Value.Match R) message.args message'.args

/-- The receiver and the arguments of a message, once its names are off the stack. -/
theorem sim_operands {R' : Pairing} {m₀' m' : Machine} (hT : m₀'.Twin σ R' m') (hrests : Rests R m₀ m R' m₀' m')
    (argc : Nat) {selector selector' : Value} (hselector : Value.Match R' selector selector')
    {parent parent' : Option Value} (hparent : Option.Rel (Value.Match R') parent parent') :
    Sim σ R'
      (do let (receiver, args) ← popOperands argc
          let selector ← name (σ.context maxFrames) selector
          let parent ← parent.mapM (name (σ.context maxFrames))
          note (.sent · selector receiver)
          return (⟨receiver, selector, parent, args⟩ : Message))
      (do let (receiver, args) ← popOperands argc
          let selector ← name (σ.context maxFrames) selector'
          let parent ← parent'.mapM (name (σ.context maxFrames))
          note (.sent · selector receiver)
          return (⟨receiver, selector, parent, args⟩ : Message)) m₀' m'
      fun R' message m₀' message' m' => Rests R m₀ m R' m₀' m' ∧ message.Match R' message' := by
  refine (sim_popOperands hT _).bind fun R₁ operands m₀₁ operands' m₁ _ hT₁ h _ => ?_
  obtain ⟨hrests₁, hreceiver, hargs⟩ := h
  obtain rfl := hrests₁.pairing_eq
  refine (reads_name maxFrames hT₁ hselector).bind hT₁ ?_
  rintro selector _ rfl -
  refine (reads_names hT₁ hparent).bind hT₁ ?_
  rintro parent _ rfl -
  refine (sim_note hT₁ _ _).bind fun R₂ _ m₀₂ _ m₂ _ hT₂ hrests₂ _ => ?_
  obtain rfl := hrests₂.pairing_eq
  exact .pure hT₂ ⟨(hrests.trans hrests₁).trans hrests₂, hreceiver, rfl, rfl, hargs⟩

theorem sim_message (hT : m₀.Twin σ R m) (kind : SendKind) (count : UInt8) :
    Sim σ R (message (σ.context maxFrames) kind count) (message (σ.context maxFrames) kind count) m₀ m
      fun R' message m₀' message' m' => Rests R m₀ m R' m₀' m' ∧ message.Match R' message' := by
  refine (sim_pop hT).bind fun R₁ selector m₀₁ selector' m₁ _ hT₁ h _ => ?_
  obtain ⟨hrests₁, hselector⟩ := h
  refine .ite (fun _ => ?_) fun _ => sim_operands hT₁ hrests₁ _ hselector .none
  simp only [map_eq_pure_bind, bind_assoc, pure_bind]
  refine (sim_pop hT₁).bind fun R₂ parent m₀₂ parent' m₂ _ hT₂ h _ => ?_
  obtain ⟨hrests₂, hparent⟩ := h
  obtain rfl := hrests₂.pairing_eq
  exact sim_operands hT₂ (hrests₁.trans hrests₂) _ hselector (.some hparent)

theorem called?_rel (hT : m₀.Twin σ R m) {message message' : Message} (h : message.Match R message') :
    Option.Rel R.pairs (called? m₀.heap message) (called? m.heap message') := by
  unfold called?
  rw [h.parent_eq, h.selector_eq, h.args.length_eq]
  split
  · exact block?_rel hT h.receiver
  · exact .none

/-- The object that a message changes by an assignment. -/
def assigned? (ctx : Context) (sent : Machine) (message : Message) : Option ObjectId :=
  match called? sent.heap message with
  | some _ => none
  | none =>
    match resolve ctx message.receiver message.selector message.parent sent with
    | .ok (.found holder value) k =>
      match behaviorOf k.heap value, message.args with
      | .assignment, [_] => if k.heap.hasSlot holder (Selector.assigned message.selector) then some holder else none
      | _, _ => none
    | _ => none

/-- A message that calls no block goes where a search leads it. -/
def deliver (ctx : Context) (message : Message) : Exec Unit := do
  match ← resolve ctx message.receiver message.selector message.parent with
  | .found holder value => apply ctx holder value message.receiver message.selector message.args
  | .missing => throw (.missingSlot message.selector)
  | .ambiguous first second =>
    note fun _ => .ambiguous message.selector first second
    throw (.ambiguousSlot message.selector)

theorem dispatch_eq (ctx : Context) (message : Message) :
    dispatch ctx message.receiver message.selector message.parent message.args =
      (do match called? (← get).heap message with
          | some block => callBlock ctx block message.selector message.args .call
          | none => deliver ctx message) := rfl

theorem sim_deliver (hT : m₀.Twin σ R m) (hclear₀ : m₀.heap.Clear σ.roots) (hclear : m.heap.Clear σ.roots)
    {message message' : Message} (h : message.Match R message') (hcalled : called? m.heap message' = none)
    (hown : ∀ id, assigned? (σ.context maxFrames) m message' = some id → ¬σ.Shares m.heap id) :
    Sim σ R (deliver (σ.context maxFrames) message) (deliver (σ.context maxFrames) message') m₀ m
      fun _ _ _ _ _ => True := by
  rcases message with ⟨receiver, selector, parent, args⟩
  rcases message' with ⟨receiver', selector', parent', args'⟩
  obtain ⟨hreceiver, rfl, rfl, hargs⟩ := h
  refine (sim_resolve hT hclear₀ hclear hreceiver _ _).bind fun R' result m₀' result' m' hp hT' h hresolve => ?_
  obtain ⟨hsame, hresult⟩ := h
  cases hresult with
  | missing => exact .throw hT'
  | ambiguous =>
    exact (sim_note hT' _ _).bind fun R'' _ m₀'' _ m'' _ hT'' _ _ => .throw hT''
  | @found holder holder' value value' hholder hv =>
    refine sim_apply hT' hholder hv (hreceiver.mono hp.le) _ (Value.Match.all_mono hp.le hargs)
      fun arg hbehavior harg hslot => ?_
    obtain rfl : args' = [arg] := harg
    have hnot := hown holder' (by simp only [assigned?, hcalled, hresolve, hbehavior, hslot, if_true])
    simpa only [Ground.Shares, Heap.Interned, hsame.strings_eq] using hnot

theorem sim_dispatch (hT : m₀.Twin σ R m) (hclear₀ : m₀.heap.Clear σ.roots) (hclear : m.heap.Clear σ.roots)
    {message message' : Message} (h : message.Match R message')
    (hown : ∀ id, assigned? (σ.context maxFrames) m message' = some id → ¬σ.Shares m.heap id) :
    Sim σ R (dispatch (σ.context maxFrames) message.receiver message.selector message.parent message.args)
      (dispatch (σ.context maxFrames) message'.receiver message'.selector message'.parent message'.args) m₀ m
      fun _ _ _ _ _ => True := by
  have hblock := called?_rel hT h
  rw [dispatch_eq, dispatch_eq]
  refine .get ?_
  generalize called? m₀.heap message = called at hblock
  generalize hcalled : called? m.heap message' = called' at hblock
  cases hblock with
  | some hblock =>
    rw [h.selector_eq]
    exact sim_callBlock hT hblock message.selector h.args .call
  | none => exact sim_deliver hT hclear₀ hclear h hcalled hown

/-! ## Instructions -/

/-- Takes the operands of a structural edit off the stack. -/
def addition (ctx : Context) : Exec (Value × String × Value) := do
  let value ← pop
  let slot ← pop
  let target ← pop
  let slot ← name ctx slot
  return (target, slot, value)

theorem addition_bind {α : Type} (ctx : Context) (next : Value × String × Value → Exec α) :
    addition ctx >>= next = (do
      let value ← pop
      let slot ← pop
      let target ← pop
      let slot ← name ctx slot
      next (target, slot, value)) := by
  simp only [addition, bind_assoc, pure_bind]

theorem addSlot_eq (ctx : Context) (kind : SlotKind) :
    addSlot ctx kind = (do
      let (target, slot, value) ← addition ctx
      match target with
      | .fixnum _ => throw (.typeMismatch .object .fixnum)
      | .ref id =>
        let value ← effective value
        onHeap <| modify fun heap => match kind with
          | .normal => heap.addSlot id slot value
          | .parent => heap.addParent id slot value
        push target) := by
  refine Eq.trans ?_ (addition_bind ctx _).symm
  rfl

theorem sim_addition (hT : m₀.Twin σ R m) :
    Sim σ R (addition (σ.context maxFrames)) (addition (σ.context maxFrames)) m₀ m
      fun R' operands m₀' operands' m' => Rests R m₀ m R' m₀' m' ∧ Value.Match R' operands.1 operands'.1 ∧
        operands'.2.1 = operands.2.1 ∧ Value.Match R' operands.2.2 operands'.2.2 := by
  refine (sim_pop hT).bind fun R₁ value m₀₁ value' m₁ _ hT₁ h₁ _ => ?_
  refine (sim_pop hT₁).bind fun R₂ slot m₀₂ slot' m₂ _ hT₂ h₂ _ => ?_
  refine (sim_pop hT₂).bind fun R₃ target m₀₃ target' m₃ _ hT₃ h₃ _ => ?_
  obtain rfl := h₁.1.pairing_eq
  obtain rfl := h₂.1.pairing_eq
  obtain rfl := h₃.1.pairing_eq
  refine (reads_name maxFrames hT₃ h₂.2).bind hT₃ ?_
  rintro name _ rfl -
  exact .pure hT₃ ⟨(h₁.1.trans h₂.1).trans h₃.1, h₃.2, rfl, h₁.2⟩

theorem sim_addSlot (hT : m₀.Twin σ R m) (kind : SlotKind)
    (hown : ∀ id slot value m', addition (σ.context maxFrames) m = .ok (.ref id, slot, value) m' →
      ¬σ.Shares m.heap id) :
    Sim σ R (addSlot (σ.context maxFrames) kind) (addSlot (σ.context maxFrames) kind) m₀ m fun _ _ _ _ _ => True := by
  rw [addSlot_eq]
  refine (sim_addition hT).bind fun R₁ operands m₀₁ operands' m₁ _ hT₁ h haddition => ?_
  rcases operands with ⟨target, slot, value⟩
  rcases operands' with ⟨target', slot', value'⟩
  obtain ⟨hrests, htarget, rfl, hv⟩ := h
  obtain rfl := hrests.pairing_eq
  cases htarget with
  | fixnum n => exact .throw hT₁
  | @ref a b hab =>
    have hshares : ¬σ.Shares m₁.heap b := by
      rw [hrests.shared_eq]
      exact hown b _ _ _ haddition
    have hown := hT₁.heap.own_of_pairs hab hshares
    refine (reads_effective hT₁ hv).bind hT₁ fun value value' hv _ => ?_
    have hedit : Heap.Sim σ R₁
        (modify fun heap => match kind with
          | .normal => heap.addSlot a slot' value
          | .parent => heap.addParent a slot' value)
        (modify fun heap => match kind with
          | .normal => heap.addSlot b slot' value'
          | .parent => heap.addParent b slot' value') m₀₁.heap m₁.heap fun R' _ _ _ _ => R' = R₁ := by
      cases kind with
      | normal => exact Heap.sim_restructure hT₁.heap hown fun _ _ ho => ho.addSlot slot' hv
      | parent => exact Heap.sim_restructure hT₁.heap hown fun _ _ ho => ho.addParent slot' hv
    refine (sim_onHeap hT₁ hedit).bind fun R₂ _ m₀₂ _ m₂ _ hT₂ heq _ => ?_
    subst heq
    exact (sim_push hT₂ (.ref hab)).mono fun _ _ _ _ _ _ _ _ => trivial

theorem sim_instantiate (hT : m₀.Twin σ R m) {body : Body} {index : Nat} {kind : ObjectKind} {params : List String}
    {inner : Option Code} (hwritten : body.Written σ.units)
    (hl : body.code.literals[index]? = some (.object kind params inner)) :
    Sim σ R (instantiate (body.site ++ [index]) kind params inner)
      (instantiate (body.site ++ [index]) kind params inner) m₀ m
      fun R' value _ value' _ => Value.Match R' value value' := by
  refine (sim_onHeap hT (Heap.sim_template hT.heap hwritten hl)).bind
    fun R₁ template m₀₁ template' m₁ _ hT₁ htemplate _ => ?_
  refine (reads_frame hT₁).bind hT₁ fun frame frame' hframe _ => ?_
  refine (sim_updateFrame hT₁ fun _ _ h => h.capture).bind fun R₂ _ m₀₂ _ m₂ _ hT₂ hrests _ => ?_
  obtain rfl := hrests.pairing_eq
  rw [← hrests.lone_eq, ← hrests.shared_eq] at htemplate
  refine (sim_onHeap hT₂ (Heap.sim_allocate hT₂.heap (htemplate.withScope hframe.activation))).bind
    fun R₃ id m₀₃ id' m₃ _ hT₃ hid _ => ?_
  exact .pure hT₃ (.ref (.inl hid.1))

theorem sim_lift {α β : Type} (hT : m₀.Twin σ R m) {y : Except Fault α} {f₀ f : α → Exec β}
    {Q : Pairing → β → Machine → β → Machine → Prop} (h : ∀ a, y = .ok a → Sim σ R (f₀ a) (f a) m₀ m Q) :
    Sim σ R (liftExcept y >>= f₀) (liftExcept y >>= f) m₀ m Q := by
  cases y with
  | ok a => exact h a rfl
  | error fault => exact .error ⟨R, .refl R _, hT⟩

theorem sim_literal (hT : m₀.Twin σ R m) (kind : LiteralKind) (index : UInt8) :
    Sim σ R (literal (σ.context maxFrames) kind index) (literal (σ.context maxFrames) kind index) m₀ m
      fun R' value _ value' _ => Value.Match R' value value' := by
  unfold literal
  split
  · exact .pure hT (.ref (hT.heap.root (by simp [Roots.ids])))
  · exact .pure hT (.ref (hT.heap.root (by simp [Roots.ids])))
  · refine (reads_frame hT).bind hT fun frame frame' hframe _ => ?_
    rw [hframe.body_eq]
    refine sim_lift hT fun l hl => ?_
    refine .ite (fun _ => .throw hT) fun _ => ?_
    cases l with
    | int n =>
      simp only
      split
      · exact .pure hT (Native.match_ofInt? ‹_›)
      · exact .throw hT
    | float x => exact sim_onHeap hT (Heap.sim_newFloat hT.heap x)
    | text s => exact sim_onHeap hT (Heap.sim_intern hT.heap s)
    | object kind params code =>
      exact sim_instantiate hT hframe.written (Code.literal_eq_ok_iff.1 hl)

theorem sim_fetch (hT : m₀.Twin σ R m) :
    Sim σ R fetch fetch m₀ m fun R' instruction m₀' instruction' m' => Rests R m₀ m R' m₀' m' ∧
      instruction' = instruction := by
  refine (reads_frame hT).bind hT fun frame frame' hframe _ => ?_
  rw [hframe.body_eq, hframe.ip_eq]
  refine sim_lift hT fun instruction _ => ?_
  refine (sim_note hT _ _).bind fun R₁ _ m₀₁ _ m₁ _ hT₁ hrests₁ _ => ?_
  obtain rfl := hrests₁.pairing_eq
  refine (sim_updateFrame hT₁ fun _ _ h => h.withIp _).bind fun R₂ _ m₀₂ _ m₂ _ hT₂ hrests₂ _ => ?_
  obtain rfl := hrests₂.pairing_eq
  exact .pure hT₂ ⟨hrests₁.trans hrests₂, rfl⟩

end Exec

/-- The object of a slot that the next instruction sets or adds. -/
def Machine.written? (ctx : Context) (m : Machine) : Option ObjectId :=
  match Exec.fetch m with
  | .ok (.send kind count) fetched =>
    match Exec.message ctx kind count fetched with
    | .ok message sent => Exec.assigned? ctx sent message
    | _ => none
  | .ok (.addSlot _) fetched =>
    match Exec.addition ctx fetched with
    | .ok (.ref id, _, _) _ => some id
    | _ => none
  | _ => none

namespace Exec

variable {σ : Setting} {R : Pairing} {m₀ m : Machine} {maxFrames : Nat}

theorem sim_execute {fetched₀ fetched : Machine} (hT : fetched₀.Twin σ R fetched)
    (hclear₀ : fetched₀.heap.Clear σ.roots) (hclear : fetched.heap.Clear σ.roots) {instruction : Instruction}
    (hfetch : fetch m = .ok instruction fetched)
    (hown : ∀ id, m.written? (σ.context maxFrames) = some id → ¬σ.Shares fetched.heap id) :
    Sim σ R (execute (σ.context maxFrames) instruction) (execute (σ.context maxFrames) instruction) fetched₀ fetched
      fun _ _ _ _ _ => True := by
  cases instruction with
  | pushSelf => exact (sim_updateFrame hT fun _ _ h => h.push h.activation).mono fun _ _ _ _ _ _ _ _ => trivial
  | pushLiteral kind index =>
    refine (sim_literal hT kind index).bind fun R' _ _ _ _ _ hT' hv _ => ?_
    exact (sim_push hT' hv).mono fun _ _ _ _ _ _ _ _ => trivial
  | pop => exact (sim_pop hT).bind fun _ _ _ _ _ _ hT' _ _ => .pure hT' trivial
  | send kind count =>
    rw [show execute (σ.context maxFrames) (.send kind count) = _ from send_eq kind count]
    refine (sim_message hT kind count).bind fun R' message m₀' message' m' _ hT' h hmessage => ?_
    obtain ⟨hrests, hmatch⟩ := h
    refine sim_dispatch hT' (hrests.lone_eq ▸ hclear₀) (hrests.shared_eq ▸ hclear) hmatch fun id hid => ?_
    rw [hrests.shared_eq]
    exact hown id (by simp only [Machine.written?, hfetch, hmessage, hid])
  | returnTop => exact sim_returnTop hT
  | addSlot kind =>
    refine sim_addSlot hT kind fun id slot value m' haddition => ?_
    exact hown id (by simp only [Machine.written?, hfetch, haddition])

theorem sim_step (hT : m₀.Twin σ R m) (hclear₀ : m₀.heap.Clear σ.roots) (hclear : m.heap.Clear σ.roots)
    (hown : ∀ id, m.written? (σ.context maxFrames) = some id → ¬σ.Shares m.heap id) :
    Sim σ R (step (σ.context maxFrames)) (step (σ.context maxFrames)) m₀ m fun _ _ _ _ _ => True := by
  rw [step_eq]
  refine (sim_fetch hT).bind fun R' instruction m₀' instruction' m' _ hT' h hfetch => ?_
  obtain ⟨hrests, rfl⟩ := h
  refine sim_execute hT' (hrests.lone_eq ▸ hclear₀) (hrests.shared_eq ▸ hclear) hfetch fun id hid => ?_
  rw [hrests.shared_eq]
  exact hown id hid

end Exec

/-! ## One instruction -/

/-- The heap ran out: this ended the process, or there was no room for the message about what did. -/
def Outcome.isExhausted (roots : Roots) : Outcome → Bool
  | .error _ _ (some (.heapExhausted _)) => true
  | .error message _ (some _) => message == .ref roots.nil
  | _ => false

theorem Outcome.isExhausted_nil (roots : Roots) (display : String) (fault : Fault) :
    isExhausted roots (.error (.ref roots.nil) display (some fault)) = true := by
  cases fault <;> simp [isExhausted]

namespace Machine

variable {σ : Setting} {R : Pairing} {m₀ m : Machine} {maxFrames : Nat}

/-- The process has ended because the heap ran out. -/
def isExhausted (roots : Roots) (m : Machine) : Bool := m.process.outcome.any (·.isExhausted roots)

/-- The next instruction does not find the room it needs. -/
def runsOut (ctx : Context) (m : Machine) : Bool := (m.advance ctx).isExhausted ctx.roots

theorem isExhausted_terminate (ctx : Context) (limit : Nat) (m : Machine) :
    (m.terminate ctx (.heapExhausted limit)).isExhausted ctx.roots = true := by
  unfold terminate
  simp only
  split <;> rfl

theorem Twin.terminate (hT : m₀.Twin σ R m) (fault : Fault)
    (hroom₀ : (m₀.terminate (σ.context maxFrames) fault).isExhausted σ.roots = false)
    (hroom : (m.terminate (σ.context maxFrames) fault).isExhausted σ.roots = false) :
    ∃ R', R.Passes m.heap R' (m.terminate (σ.context maxFrames) fault).heap ∧
      (m₀.terminate (σ.context maxFrames) fault).Twin σ R' (m.terminate (σ.context maxFrames) fault) := by
  have hnil (m : Machine) : (m.finishWithError (σ.context maxFrames) (.ref σ.roots.nil) (some fault)).isExhausted
      σ.roots = true := Outcome.isExhausted_nil _ _ _
  have hT' : (m₀.note (.failed m₀.process.id fault)).Twin σ R (m.note (.failed m.process.id fault)) :=
    ⟨hT.heap, hT.process⟩
  obtain ⟨hT₁, hp₁⟩ := hT'.unwind
  unfold Machine.terminate at hroom₀ hroom ⊢
  simp only at hroom₀ hroom ⊢
  generalize (m₀.note (.failed m₀.process.id fault)).unwind = ended₀ at hT₁ hroom₀ ⊢
  generalize (m.note (.failed m.process.id fault)).unwind = ended at hT₁ hp₁ hroom ⊢
  have hmessage := Heap.sim_newString hT₁.heap fault.message
  unfold Heap.Sim ProtoVm.Sim at hmessage
  generalize σ.roots.newString fault.message ended₀.heap = result₀ at hmessage hroom₀ ⊢
  generalize σ.roots.newString fault.message ended.heap = result at hmessage hroom ⊢
  cases hmessage with
  | @ok message message' heap₀ heap h =>
    obtain ⟨R', hp₂, hm, hv⟩ := h
    have hT₂ : Machine.Twin σ R' { ended₀ with heap := heap₀ } { ended with heap } := ⟨hm, hT₁.process.mono hp₂.le⟩
    obtain ⟨hT₃, hp₃⟩ := hT₂.finishWithError maxFrames hv (some fault)
    exact ⟨R', (hp₁.trans hp₂).trans hp₃, hT₃⟩
  | error h => simp [hnil] at hroom
  | loneFull => simp [hnil] at hroom₀
  | sharedFull => simp [hnil] at hroom

/-- What is done after a failed instruction, unless the process just ends. -/
def report (ctx : Context) (fault : Fault) : Exec Unit := do
  let message ← Exec.onHeap (ctx.roots.newString fault.message)
  Exec.raise ctx message (some fault)

theorem sim_report (hT : m₀.Twin σ R m) (fault : Fault) :
    Exec.Sim σ R (report (σ.context maxFrames) fault) (report (σ.context maxFrames) fault) m₀ m
      fun _ _ _ _ _ => True :=
  (Exec.sim_onHeap hT (Heap.sim_newString hT.heap fault.message)).bind
    fun _ _ _ _ _ _ hT' hv _ => Exec.sim_raise hT' hv (some fault)

theorem fail_eq (ctx : Context) (fault : Fault) (m : Machine) :
    m.fail ctx fault =
      if fault.isRecoverable then
        match report ctx fault m with
        | .ok _ m => m
        | .error fault m => m.terminate ctx fault
      else m.terminate ctx fault := rfl

theorem Twin.fail (hT : m₀.Twin σ R m) (fault : Fault)
    (hroom₀ : (m₀.fail (σ.context maxFrames) fault).isExhausted σ.roots = false)
    (hroom : (m.fail (σ.context maxFrames) fault).isExhausted σ.roots = false) :
    ∃ R', R.Passes m.heap R' (m.fail (σ.context maxFrames) fault).heap ∧
      (m₀.fail (σ.context maxFrames) fault).Twin σ R' (m.fail (σ.context maxFrames) fault) := by
  rw [fail_eq] at hroom₀
  rw [fail_eq] at hroom
  rw [fail_eq, fail_eq]
  cases hrecoverable : fault.isRecoverable with
  | false =>
    simp only [hrecoverable, Bool.false_eq_true, if_false] at hroom₀ hroom ⊢
    exact hT.terminate fault hroom₀ hroom
  | true =>
    simp only [hrecoverable, if_true] at hroom₀ hroom ⊢
    have hreport : Exec.Sim σ R (report (σ.context maxFrames) fault) (report (σ.context maxFrames) fault) m₀ m
        fun _ _ _ _ _ => True := sim_report hT fault
    unfold Exec.Sim ProtoVm.Sim at hreport
    generalize report (σ.context maxFrames) fault m₀ = result₀ at hreport hroom₀ ⊢
    generalize report (σ.context maxFrames) fault m = result at hreport hroom ⊢
    cases hreport with
    | ok h =>
      obtain ⟨R', hp, hT', -⟩ := h
      exact ⟨R', hp, hT'⟩
    | error h =>
      obtain ⟨R', hp, hT'⟩ := h
      obtain ⟨R'', hp', hT''⟩ := hT'.terminate _ hroom₀ hroom
      exact ⟨R'', hp.trans hp', hT''⟩
    | loneFull => exact absurd hroom₀ (by simp [isExhausted_terminate (σ.context maxFrames)])
    | sharedFull => exact absurd hroom (by simp [isExhausted_terminate (σ.context maxFrames)])

/-- Twins stay twins in one instruction. -/
theorem Twin.advance (hT : m₀.Twin σ R m) (hclear₀ : m₀.heap.Clear σ.roots) (hclear : m.heap.Clear σ.roots)
    (hown : ∀ id, m.written? (σ.context maxFrames) = some id → ¬σ.Shares m.heap id)
    (hroom₀ : m₀.runsOut (σ.context maxFrames) = false) (hroom : m.runsOut (σ.context maxFrames) = false) :
    ∃ R', R.Passes m.heap R' (m.advance (σ.context maxFrames)).heap ∧
      (m₀.advance (σ.context maxFrames)).Twin σ R' (m.advance (σ.context maxFrames)) := by
  have hstep := Exec.sim_step hT hclear₀ hclear hown
  have hfull (limit : Nat) (m : Machine) : (m.fail (σ.context maxFrames) (.heapExhausted limit)).isExhausted σ.roots =
      true := isExhausted_terminate (σ.context maxFrames) limit m
  unfold Exec.Sim ProtoVm.Sim at hstep
  unfold runsOut Machine.advance at hroom₀ hroom
  unfold Machine.advance
  generalize Exec.step (σ.context maxFrames) m₀ = result₀ at hstep hroom₀ ⊢
  generalize Exec.step (σ.context maxFrames) m = result at hstep hroom ⊢
  cases hstep with
  | ok h =>
    obtain ⟨R', hp, hT', -⟩ := h
    exact ⟨R', hp, hT'⟩
  | error h =>
    obtain ⟨R', hp, hT'⟩ := h
    obtain ⟨R'', hp', hT''⟩ := hT'.fail _ hroom₀ hroom
    exact ⟨R'', hp.trans hp', hT''⟩
  | loneFull => simp [hfull] at hroom₀
  | sharedFull => simp [hfull] at hroom

end Machine

end ProtoVm
