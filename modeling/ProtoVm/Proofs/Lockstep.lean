import ProtoVm.Proofs.Mirror

/-!
# Operations in lockstep

The same operation on two states that mirror each other ends alike on both: with matching results, or with
the same fault. Only where one of the heaps is full can the two ends differ.
-/

namespace ProtoVm

/-- Both operations succeed with `Q`, or fail with the same fault and `E`, or one of them finds its heap
full. -/
inductive Agrees {s α : Type} (Q : α → s → α → s → Prop) (E : s → s → Prop) :
    EStateM.Result Fault s α → EStateM.Result Fault s α → Prop
  | ok {a₀ a : α} {s₀ s₁ : s} (h : Q a₀ s₀ a s₁) : Agrees Q E (.ok a₀ s₀) (.ok a s₁)
  | error {fault : Fault} {s₀ s₁ : s} (h : E s₀ s₁) : Agrees Q E (.error fault s₀) (.error fault s₁)
  | loneFull {limit : Nat} {s₀ : s} {result : EStateM.Result Fault s α} :
      Agrees Q E (.error (.heapExhausted limit) s₀) result
  | sharedFull {limit : Nat} {s₁ : s} {result : EStateM.Result Fault s α} :
      Agrees Q E result (.error (.heapExhausted limit) s₁)

theorem Agrees.mono {s α : Type} {Q Q' : α → s → α → s → Prop} {E E' : s → s → Prop}
    {result₀ result : EStateM.Result Fault s α} (h : Agrees Q E result₀ result)
    (hok : ∀ a₀ s₀ a s₁, Q a₀ s₀ a s₁ → Q' a₀ s₀ a s₁) (herror : ∀ s₀ s₁, E s₀ s₁ → E' s₀ s₁) :
    Agrees Q' E' result₀ result := by
  cases h with
  | ok h => exact .ok (hok _ _ _ _ h)
  | error h => exact .error (herror _ _ h)
  | loneFull => exact .loneFull
  | sharedFull => exact .sharedFull

/-- `x₀` in the lone state `s₀` and `x` in the shared state `s₁` agree, and the states mirror each other
again under a larger pairing. `T` says what it is to mirror each other and `heap` finds the heap. -/
def Sim {s α : Type} (T : Pairing → s → s → Prop) (heap : s → Heap) (R : Pairing) (x₀ x : EStateM Fault s α)
    (s₀ s₁ : s) (Q : Pairing → α → s → α → s → Prop) : Prop :=
  Agrees (fun a₀ s₀' a s₁' => ∃ R', R.Passes (heap s₁) R' (heap s₁') ∧ T R' s₀' s₁' ∧ Q R' a₀ s₀' a s₁')
    (fun s₀' s₁' => ∃ R', R.Passes (heap s₁) R' (heap s₁') ∧ T R' s₀' s₁') (x₀ s₀) (x s₁)

namespace Sim

variable {s α β : Type} {T : Pairing → s → s → Prop} {heap : s → Heap} {R : Pairing} {x₀ x : EStateM Fault s α}
  {s₀ s₁ : s} {P Q : Pairing → α → s → α → s → Prop}

theorem mono (h : Sim T heap R x₀ x s₀ s₁ P)
    (himp : ∀ R' a₀ s₀' a s₁', R.Passes (heap s₁) R' (heap s₁') → T R' s₀' s₁' → P R' a₀ s₀' a s₁' →
      Q R' a₀ s₀' a s₁') :
    Sim T heap R x₀ x s₀ s₁ Q := by
  refine Agrees.mono h (fun a₀ s₀' a s₁' h => ?_) fun _ _ h => h
  obtain ⟨R', hp, hT, hP⟩ := h
  exact ⟨R', hp, hT, himp R' a₀ s₀' a s₁' hp hT hP⟩

theorem pure {a₀ a : α} (hT : T R s₀ s₁) (h : Q R a₀ s₀ a s₁) :
    Sim T heap R (pure a₀) (pure a) s₀ s₁ Q := .ok ⟨R, .refl R _, hT, h⟩

theorem throw {fault : Fault} (hT : T R s₀ s₁) : Sim T heap R (throw fault) (throw fault) s₀ s₁ Q :=
  .error ⟨R, .refl R _, hT⟩

theorem get {f₀ f : s → EStateM Fault s α} (h : Sim T heap R (f₀ s₀) (f s₁) s₀ s₁ Q) :
    Sim T heap R (MonadState.get >>= f₀) (MonadState.get >>= f) s₀ s₁ Q := h

/-- Both states are changed on the spot. -/
theorem modify {edit₀ edit : s → s} {Q : Pairing → PUnit → s → PUnit → s → Prop} {R' : Pairing}
    (hp : R.Passes (heap s₁) R' (heap (edit s₁))) (hT : T R' (edit₀ s₀) (edit s₁))
    (h : Q R' ⟨⟩ (edit₀ s₀) ⟨⟩ (edit s₁)) : Sim T heap R (modify edit₀) (modify edit) s₀ s₁ Q :=
  .ok ⟨R', hp, hT, h⟩

theorem bind {f₀ f : α → EStateM Fault s β} {Q : Pairing → β → s → β → s → Prop} (h : Sim T heap R x₀ x s₀ s₁ P)
    (hf : ∀ R' a₀ s₀' a s₁', R.Passes (heap s₁) R' (heap s₁') → T R' s₀' s₁' → P R' a₀ s₀' a s₁' →
      x s₁ = .ok a s₁' → Sim T heap R' (f₀ a₀) (f a) s₀' s₁' Q) :
    Sim T heap R (x₀ >>= f₀) (x >>= f) s₀ s₁ Q := by
  unfold Sim at h ⊢
  generalize hx₀ : x₀ s₀ = result₀ at h
  generalize hx : x s₁ = result at h
  cases h with
  | ok h =>
    obtain ⟨R', hp, hT, hP⟩ := h
    rw [bind_of_ok hx₀, bind_of_ok hx]
    refine Agrees.mono (hf _ _ _ _ _ hp hT hP hx) (fun b₀ s₀'' b s₁'' h => ?_) fun s₀'' s₁'' h => ?_
    · obtain ⟨R'', hp', hT', hQ⟩ := h
      exact ⟨R'', hp.trans hp', hT', hQ⟩
    · obtain ⟨R'', hp', hT'⟩ := h
      exact ⟨R'', hp.trans hp', hT'⟩
  | error h =>
    rw [bind_of_error hx₀, bind_of_error hx]
    exact .error h
  | loneFull =>
    rw [bind_of_error hx₀]
    exact .loneFull
  | sharedFull =>
    rw [bind_of_error hx]
    exact .sharedFull

/-- Both operations take the same branch. -/
theorem ite {c : Prop} [Decidable c] {y₀ y : EStateM Fault s α} (hx : c → Sim T heap R x₀ x s₀ s₁ Q)
    (hy : ¬c → Sim T heap R y₀ y s₀ s₁ Q) :
    Sim T heap R (if c then x₀ else y₀) (if c then x else y) s₀ s₁ Q := by
  split
  · exact hx ‹_›
  · exact hy ‹_›

end Sim

/-! ## Making objects -/

namespace Heap

/-- An operation on mirrored heaps. -/
abbrev Sim {α : Type} (σ : Setting) : Pairing → HeapM α → HeapM α → Heap → Heap →
    (Pairing → α → Heap → α → Heap → Prop) → Prop := ProtoVm.Sim (Mirror σ) id

variable {σ : Setting} {R : Pairing} {h₀ h : Heap}

theorem sim_allocate (hm : Mirror σ R h₀ h) {object object' : Object} (ho : Object.Match σ R object object') :
    Sim σ R (allocate object) (allocate object') h₀ h
      fun R' a h₀' b h' => R'.own a b ∧ h₀'.get? a = some object ∧ h'.get? b = some object' := by
  unfold Sim ProtoVm.Sim
  cases hallocate₀ : allocate object h₀ with
  | error fault h₀' =>
    rw [(allocate_error hallocate₀).2]
    exact .loneFull
  | ok a h₀' =>
    cases hallocate : allocate object' h with
    | error fault h' =>
      rw [(allocate_error hallocate).2]
      exact .sharedFull
    | ok b h' =>
      have hadds₀ := allocate_adds hm.stocks₀.tidy hallocate₀
      have hadds := allocate_adds hm.stocks.tidy hallocate
      obtain ⟨hm', hp⟩ := hm.allocate hadds₀ hadds ho
      exact .ok ⟨_, hp, hm', .inr ⟨rfl, rfl⟩, hadds₀.get?_self, hadds.get?_self⟩

theorem sim_newPayload (hm : Mirror σ R h₀ h) {id : ObjectId} (hid : id ∈ σ.roots.ids) {payload : Payload}
    (hp : Payload.Match σ R payload payload) :
    Sim σ R (do return Value.ref (← cloneWithPayload id payload))
      (do return Value.ref (← cloneWithPayload id payload)) h₀ h
      fun R' value _ value' _ => Value.Match R' value value' := by
  have ho := (hm.object (hm.root hid)).withPayload hp
  exact (sim_allocate hm ho).bind fun R' a h₀' b h' _ hm' hab _ => .pure hm' (.ref (.inl hab.1))

theorem sim_newString (hm : Mirror σ R h₀ h) (s : String) :
    Sim σ R (σ.roots.newString s) (σ.roots.newString s) h₀ h fun R' value _ value' _ => Value.Match R' value value' :=
  sim_newPayload hm (by simp [Roots.ids]) (.text s)

theorem sim_newFloat (hm : Mirror σ R h₀ h) (x : Float) :
    Sim σ R (σ.roots.newFloat x) (σ.roots.newFloat x) h₀ h fun R' value _ value' _ => Value.Match R' value value' :=
  sim_newPayload hm (by simp [Roots.ids]) (.float x)

theorem sim_releaseOnFault {α : Type} {x₀ x : HeapM α} {P : Pairing → α → Heap → α → Heap → Prop}
    (hx : Sim σ R x₀ x h₀ h P) {a b : ObjectId} (hab : R.own a b) :
    Sim σ R (releaseOnFault a x₀) (releaseOnFault b x) h₀ h P := by
  unfold Sim ProtoVm.Sim releaseOnFault at *
  generalize x₀ h₀ = result₀ at hx
  generalize x h = result at hx
  cases hx with
  | ok h => exact .ok h
  | error h =>
    obtain ⟨R', hp, hm⟩ := h
    obtain ⟨hm', hp'⟩ := hm.release (hp.le.1 a b hab)
    exact .error ⟨R', hp.trans hp', hm'⟩
  | loneFull => exact .loneFull
  | sharedFull => exact .sharedFull

/-- The objects of a call are made alike. -/
theorem sim_newRecords (hm : Mirror σ R h₀ h) {object object' : ObjectId} (hobject : R.pairs object object')
    {method method' : Method} (hmethod : Method.Match σ method method') {args args' : List Value}
    (hargs : List.Forall₂ (Value.Match R) args args') {nil nil' lexical lexical' receiver receiver' : Value}
    (hnil : Value.Match R nil nil') (hlexical : Value.Match R lexical lexical')
    (hreceiver : Value.Match R receiver receiver') :
    Sim σ R (newRecords object method args nil lexical receiver)
      (newRecords object' method' args' nil' lexical' receiver') h₀ h
      fun R' records _ records' _ => R'.pairs records.activation records'.activation ∧
        List.Forall₂ R'.own records.ids records'.ids := by
  unfold newRecords
  rw [hmethod.params_eq]
  split
  · have ho := ((hm.object hobject).withScope hlexical).withPayload (.activation hreceiver)
    refine ProtoVm.Sim.bind (sim_allocate hm ho) fun R' a h₀' b h' _ hm' hab _ => .pure hm' ⟨.inl hab.1, ?_⟩
    exact .cons hab.1 .nil
  · have hbinding : Object.Match σ R (bindingOf method args nil lexical) (bindingOf method' args' nil' lexical') := by
      refine ⟨?_, rfl, .data, hmethod.bindingValues hargs hnil, .nil, .some hlexical, .none⟩
      simp only [bindingOf, Method.bindingLayout, hmethod.params_eq]
    refine ProtoVm.Sim.bind (sim_allocate hm hbinding) fun R₁ a h₀₁ b h₁ hp₁ hm₁ hab _ => ?_
    have hle := hp₁.le
    have ho := ((hm₁.object (Pairing.pairs_mono hle hobject)).withScope (.ref (.inl hab.1))).withPayload
      (.activation (hreceiver.mono hle))
    have hactivation := sim_releaseOnFault (sim_allocate hm₁ ho) hab.1
    refine ProtoVm.Sim.bind hactivation fun R₂ a₂ h₀₂ b₂ h₂ hp₂ hm₂ hab₂ _ => .pure hm₂ ⟨.inl hab₂.1, ?_⟩
    exact .cons hab₂.1 (.cons (hp₂.le.1 _ _ hab.1) .nil)

/-! ## Objects that are made once -/

/-- A text without an object gets one. -/
theorem ends_intern {s : String} (hs : σ.Stocks h) (hnone : h.strings.lookup s = none) :
    Ends (σ.roots.intern s) h
      (fun value h' => ∃ id middle, value = .ref id ∧ h.Adds (σ.text s) id middle ∧
        h' = { middle with strings := (s, id) :: middle.strings })
      fun fault _ => ∃ limit, fault = .heapExhausted limit := by
  have hobject : h.object σ.roots.stringPrototype = σ.base.object σ.roots.stringPrototype := by
    rw [Heap.object, hs.kept _ (σ.roots_issued _ (by simp [Roots.ids])), Heap.object]
  unfold Roots.intern
  simp only [ends_bind, ends_get, hnone, cloneWithPayload, copy, hobject]
  refine ends_iff.2 ⟨fun id middle h => ?_, fun fault middle h => ⟨_, (allocate_error h).2⟩⟩
  exact ⟨id, middle, rfl, allocate_adds hs.tidy h, rfl⟩

theorem intern_of_some {roots : Roots} {s : String} {id : ObjectId} (hs : h.strings.lookup s = some id) :
    roots.intern s h = .ok (.ref id) h := by
  unfold Roots.intern
  rw [get_bind, hs]
  rfl

theorem sim_intern (hm : Mirror σ R h₀ h) (s : String) :
    Sim σ R (σ.roots.intern s) (σ.roots.intern s) h₀ h fun R' value _ value' _ => Value.Match R' value value' := by
  unfold Sim ProtoVm.Sim
  cases hlookup₀ : h₀.strings.lookup s with
  | some a =>
    obtain ⟨b, hlookup, hab⟩ := hm.strings s a hlookup₀
    rw [intern_of_some hlookup₀, intern_of_some hlookup]
    exact .ok ⟨R, .refl R h, hm, .ref (.inr hab)⟩
  | none =>
    have hends₀ := ends_intern hm.stocks₀ hlookup₀
    cases hintern₀ : σ.roots.intern s h₀ with
    | error fault h₀' =>
      obtain ⟨limit, rfl⟩ := hends₀.of_error hintern₀
      exact .loneFull
    | ok value h₀' =>
      obtain ⟨a, middle₀, rfl, hadds₀, rfl⟩ := hends₀.of_ok hintern₀
      obtain ⟨hs₀, hg₀⟩ := hm.stocks₀.intern hlookup₀ hadds₀
      have hstrings (t : String) (x : ObjectId) (ht : ((s, a) :: middle₀.strings).lookup t = some x) :
          h₀.strings.lookup t = some x ∨ t = s ∧ x = a := by
        by_cases heq : t = s
        · subst heq
          exact .inr ⟨rfl, by simpa [eq_comm] using ht⟩
        · rw [Ground.lookup_cons_ne heq, hadds₀.strings_eq] at ht
          exact .inl ht
      cases hlookup : h.strings.lookup s with
      | some b =>
        -- another process has had the text before
        rw [intern_of_some hlookup]
        obtain ⟨hunpaired, hobject, hback⟩ := hm.interned_alone hlookup₀ hlookup
        obtain ⟨hm', hp⟩ := hm.intern hg₀ (.refl h) hs₀ hm.stocks (fun _ hx => hadds₀.kept hx) (fun _ _ => rfl)
          hadds₀.unissued hunpaired (by simp) hlookup hstrings hback hadds₀.get?_self hobject
        exact .ok ⟨_, hp, hm', .ref (.inr (.inr ⟨rfl, rfl⟩))⟩
      | none =>
        have hends := ends_intern hm.stocks hlookup
        cases hintern : σ.roots.intern s h with
        | error fault h' =>
          obtain ⟨limit, rfl⟩ := hends.of_error hintern
          exact .sharedFull
        | ok value' h' =>
          obtain ⟨b, middle, rfl, hadds, rfl⟩ := hends.of_ok hintern
          obtain ⟨hs, hg⟩ := hm.stocks.intern hlookup hadds
          have hback (t : String) (ht : ((s, b) :: middle.strings).lookup t = some b) : t = s := by
            by_contra heq
            rw [Ground.lookup_cons_ne heq, hadds.strings_eq] at ht
            exact hadds.unissued (hm.stocks.issued b (.inl (.inr ⟨t, ht⟩)))
          obtain ⟨hm', hp⟩ := hm.intern hg₀ hg hs₀ hs (fun _ hx => hadds₀.kept hx) (fun _ hy => hadds.kept hy)
            hadds₀.unissued (hm.not_pairs_right hadds.unissued) (by simp) (by simp) hstrings hback hadds₀.get?_self
            hadds.get?_self
          exact .ok ⟨_, hp, hm', .ref (.inr (.inr ⟨rfl, rfl⟩))⟩

/-- `h'` is `h`, and has the object `id` from which copies of a literal are made. -/
structure Provides (g : Ground) (kind : ObjectKind) (params : List String) (body : Body) (h : Heap) (id : ObjectId)
    (h' : Heap) : Prop where
  stocks : g.Stocks h'
  grows : h.Grows h'
  kept : ∀ other, h.Issued other → h'.get? other = h.get? other
  strings_eq : h'.strings = h.strings
  template : ∃ object, h'.get? id = some object ∧ object.IsTemplate params body kind

/-- A literal has the object from which its copies are made, or gets it. -/
theorem ends_template (hs : σ.Stocks h) {body : Body} {index : Nat} {kind : ObjectKind} {params : List String}
    {inner : Option Code} (hw : body.Written σ.units)
    (hl : body.code.literals[index]? = some (.object kind params inner)) :
    Ends (template (body.site ++ [index]) kind params inner) h
      (Provides σ.toGround kind params ⟨(inner.getD {}).finalize, body.site ++ [index]⟩ h)
      fun fault _ => ∃ limit, fault = .heapExhausted limit := by
  have hmake {middle : Heap} (hsame : h.SameStore middle) {object : Object}
      (ho : object.IsTemplate params ⟨(inner.getD {}).finalize, body.site ++ [index]⟩ kind) :
      Ends
        (do let id ← allocate object
            modify fun heap => { heap with templates := (body.site ++ [index], id) :: heap.templates }
            return id) middle
        (Provides σ.toGround kind params ⟨(inner.getD {}).finalize, body.site ++ [index]⟩ h)
        fun fault _ => ∃ limit, fault = .heapExhausted limit := by
    have hs' := hs.sameStore hsame
    simp only [ends_bind, ends_modify, ends_pure]
    refine ends_iff.2 ⟨fun id made hallocate => ?_, fun fault made hallocate => ⟨_, (allocate_error hallocate).2⟩⟩
    have hadds := allocate_adds hs'.tidy hallocate
    obtain ⟨hs'', hg⟩ := hs'.template hw hl ho hadds
    refine ⟨hs'', hsame.grows.trans hg, fun other hother => ?_, hadds.strings_eq.trans hsame.strings_eq, object,
      hadds.get?_self, ho⟩
    exact (hadds.kept (hsame.grows.issued other hother)).trans (hsame.get?_eq other)
  have hdraw : h.SameStore { h with nextShape := h.nextShape + 2 } := ⟨rfl, rfl, rfl, rfl, rfl⟩
  unfold template
  simp only [ends_bind, ends_get]
  split
  · rename_i id hid
    have htemplate := (hs.templates _ id hid).2 body index kind params inner hw rfl hl
    exact ⟨hs, .refl h, fun _ _ => rfl, rfl, htemplate⟩
  · cases kind with
    | plain => exact hmake ⟨rfl, rfl, rfl, rfl, rfl⟩ .plain
    | method => exact hmake hdraw (.method (h.nextShape + 1) h.nextShape)
    | block => exact hmake hdraw (.block (h.nextShape + 1) h.nextShape)

theorem isTemplate_match {params : List String} {body : Body} {kind : ObjectKind} {object object' : Object}
    (h : object.IsTemplate params body kind) (h' : object'.IsTemplate params body kind)
    (hw : body.Written σ.units) : Object.Match σ R object object' := by
  cases h <;> cases h'
  · exact .empty
  · exact ⟨rfl, rfl, .method _ _ _ _ hw, .nil, .nil, .none, .none⟩
  · exact ⟨rfl, rfl, .method _ _ _ _ hw, .nil, .nil, .none, .none⟩

theorem sim_template (hm : Mirror σ R h₀ h) {body : Body} {index : Nat} {kind : ObjectKind} {params : List String}
    {inner : Option Code} (hw : body.Written σ.units)
    (hl : body.code.literals[index]? = some (.object kind params inner)) :
    Sim σ R (template (body.site ++ [index]) kind params inner) (template (body.site ++ [index]) kind params inner) h₀ h
      fun R' a h₀' b h' => Object.Match σ R' (h₀'.object a) (h'.object b) := by
  have hends₀ := ends_template hm.stocks₀ hw hl
  have hends := ends_template hm.stocks hw hl
  unfold Sim ProtoVm.Sim
  cases htemplate₀ : template (body.site ++ [index]) kind params inner h₀ with
  | error fault h₀' =>
    obtain ⟨limit, rfl⟩ := hends₀.of_error htemplate₀
    exact .loneFull
  | ok a h₀' =>
    cases htemplate : template (body.site ++ [index]) kind params inner h with
    | error fault h' =>
      obtain ⟨limit, rfl⟩ := hends.of_error htemplate
      exact .sharedFull
    | ok b h' =>
      have hp₀ := hends₀.of_ok htemplate₀
      have hp := hends.of_ok htemplate
      obtain ⟨object, hget₀, ho₀⟩ := hp₀.template
      obtain ⟨object', hget, ho⟩ := hp.template
      have hm' : Mirror σ R h₀' h' := by
        refine hm.change hp₀.grows hp.grows hp₀.stocks hp.stocks (fun x y hxy => ?_) hp₀.strings_eq
        obtain ⟨hx, hy⟩ := hm.issued x y hxy
        rw [hp₀.kept x hx, hp.kept y hy]
        exact hm.objects x y hxy
      have hmatch : Object.Match σ R (h₀'.object a) (h'.object b) := by
        rw [object_of_get? hget₀, object_of_get? hget]
        exact isTemplate_match ho₀ ho (hw.part hl)
      exact .ok ⟨R, ⟨le_rfl, hp.grows, fun id hid _ => hp.kept id hid, fun _ _ => .inl⟩, hm', hmatch⟩

/-! ## Changing objects -/

/-- An assignment succeeds in both heaps or in none. -/
theorem sim_setSlot (hm : Mirror σ R h₀ h) {holder holder' : ObjectId} (hholder : R.pairs holder holder')
    (name : String) {value value' : Value} (hv : Value.Match R value value')
    (hown : h.hasSlot holder' name = true → ¬σ.Shares h holder') :
    Sim σ R (modifyGet (·.setSlot holder name value)) (modifyGet (·.setSlot holder' name value')) h₀ h
      fun R' ok _ ok' _ => R' = R ∧ ok' = ok := by
  have hslots := (hm.object hholder).slots_eq
  cases hindex : (h₀.object holder).shape.slots.index? name with
  | none =>
    have hindex' : (h.object holder').shape.slots.index? name = none := by rw [hslots, hindex]
    refine Agrees.ok ⟨R, ?_, ?_, rfl, ?_⟩ <;> simp only [hindex, hindex']
    · exact .refl R h
    · exact hm
  | some index =>
    have hindex' : (h.object holder').shape.slots.index? name = some index := by rw [hslots, hindex]
    have hshares := hown (by simp [hasSlot, Layout.contains, hindex'])
    obtain ⟨hm', hp⟩ := hm.update (hm.own_of_pairs hholder hshares) fun _ _ ho => ho.setSlot index hv
    refine Agrees.ok ⟨R, ?_, ?_, rfl, ?_⟩ <;> simp only [hindex, hindex']
    · exact hp
    · exact hm'

/-- A structural edit of an object of the process. -/
theorem sim_restructure (hm : Mirror σ R h₀ h) {a b : ObjectId} (hab : R.own a b) {edit₀ edit : Object → Object}
    (hedit : ∀ object object', Object.Match σ R object object' → Object.Match σ R (edit₀ object) (edit object')) :
    Sim σ R (modify (·.restructure a edit₀)) (modify (·.restructure b edit)) h₀ h fun R' _ _ _ _ => R' = R := by
  obtain ⟨hm', hp⟩ := hm.restructure hab hedit
  exact .modify hp hm' rfl

end Heap

/-! ## What is seen of a value -/

namespace Mirror

variable {σ : Setting} {R : Pairing} {h₀ h : Heap} {value value' : Value}

theorem object? (hm : Mirror σ R h₀ h) (hv : Value.Match R value value') :
    Option.Rel (Object.Match σ R) (h₀.object? value) (h.object? value') := by
  cases hv with
  | fixnum n => exact .none
  | ref hab => exact .some (hm.object hab)

theorem toInt?_eq (hv : Value.Match R value value') : value'.toInt? = value.toInt? := by
  cases hv <;> rfl

theorem text?_eq (hm : Mirror σ R h₀ h) (hv : Value.Match R value value') : h.text? value' = h₀.text? value := by
  have hobject := hm.object? hv
  unfold Heap.text?
  generalize h₀.object? value = object at hobject
  generalize h.object? value' = object' at hobject
  cases hobject with
  | none => rfl
  | @some object object' ho =>
    have hpayload := ho.payload
    rcases object with ⟨shape, slots, parents, scope, payload⟩
    rcases object' with ⟨shape', slots', parents', scope', payload'⟩
    cases hpayload <;> rfl

theorem float?_eq (hm : Mirror σ R h₀ h) (hv : Value.Match R value value') : h.float? value' = h₀.float? value := by
  have hobject := hm.object? hv
  unfold Heap.float?
  generalize h₀.object? value = object at hobject
  generalize h.object? value' = object' at hobject
  cases hobject with
  | none => rfl
  | @some object object' ho =>
    have hpayload := ho.payload
    rcases object with ⟨shape, slots, parents, scope, payload⟩
    rcases object' with ⟨shape', slots', parents', scope', payload'⟩
    cases hpayload <;> rfl

/-- A root object is paired with itself only. -/
theorem eq_root_iff (hm : Mirror σ R h₀ h) {a b root : ObjectId} (hab : R.pairs a b) (hroot : root ∈ σ.roots.ids) :
    a = root ↔ b = root := Relator.rel_eq hm.unique hab (hm.root hroot)

theorem kindOf_eq (hm : Mirror σ R h₀ h) (hv : Value.Match R value value') :
    h.kindOf σ.roots value' = h₀.kindOf σ.roots value := by
  cases hv with
  | fixnum n => rfl
  | ref hab =>
    have ho := hm.object hab
    have hpayload := ho.payload
    have hbehavior := ho.behavior
    simp only [Heap.kindOf, hm.eq_root_iff hab (show σ.roots.nil ∈ _ by simp [Roots.ids]),
      hm.eq_root_iff hab (show σ.roots.trueObject ∈ _ by simp [Roots.ids]),
      hm.eq_root_iff hab (show σ.roots.falseObject ∈ _ by simp [Roots.ids])]
    generalize (h₀.object _).payload = payload at hpayload ⊢
    generalize (h.object _).payload = payload' at hpayload ⊢
    generalize (h₀.object _).shape.behavior = behavior at hbehavior ⊢
    generalize (h.object _).shape.behavior = behavior' at hbehavior ⊢
    cases hpayload <;> cases hbehavior <;> rfl

theorem display_eq (hm : Mirror σ R h₀ h) (hv : Value.Match R value value') :
    h.display σ.roots value' = h₀.display σ.roots value := by
  cases hv with
  | fixnum n => rfl
  | @ref a b hab =>
    have ho := hm.object hab
    have hpayload := ho.payload
    have hbehavior := ho.behavior
    have hshape : Heap.displayShape (h.object b).shape = Heap.displayShape (h₀.object a).shape := by
      rw [Heap.displayShape, Heap.displayShape, ho.slots_eq, ho.parents_eq]
    simp only [Heap.display, hm.eq_root_iff hab (show σ.roots.nil ∈ _ by simp [Roots.ids]),
      hm.eq_root_iff hab (show σ.roots.trueObject ∈ _ by simp [Roots.ids]),
      hm.eq_root_iff hab (show σ.roots.falseObject ∈ _ by simp [Roots.ids]), hshape]
    generalize (h₀.object _).payload = payload at hpayload ⊢
    generalize (h.object _).payload = payload' at hpayload ⊢
    generalize (h₀.object _).shape.behavior = behavior at hbehavior ⊢
    generalize (h.object _).shape.behavior = behavior' at hbehavior ⊢
    cases hpayload <;> cases hbehavior <;> rfl

theorem effective (hm : Mirror σ R h₀ h) (hv : Value.Match R value value') :
    Value.Match R (h₀.effective value) (h.effective value') := by
  cases hv with
  | fixnum n => exact .fixnum n
  | ref hab =>
    have hreceiver := (hm.object hab).receiver?
    rw [Heap.effective_ref, Heap.effective_ref]
    generalize (h₀.object _).payload.receiver? = receiver at hreceiver ⊢
    generalize (h.object _).payload.receiver? = receiver' at hreceiver ⊢
    cases hreceiver with
    | some hv => exact hv
    | none => exact .ref hab

theorem effective_all (hm : Mirror σ R h₀ h) {values values' : List Value}
    (hvs : List.Forall₂ (Value.Match R) values values') :
    List.Forall₂ (Value.Match R) (values.map h₀.effective) (values'.map h.effective) :=
  List.rel_map (fun _ _ hv => hm.effective hv) hvs

end Mirror

/-! ## Natives -/

/-- Both operations leave their states alone, and end with `P` or with the same fault. -/
def Reads {s α : Type} (x₀ x : EStateM Fault s α) (s₀ s₁ : s) (P : α → α → Prop) : Prop :=
  (∃ a₀ a, x₀ s₀ = .ok a₀ s₀ ∧ x s₁ = .ok a s₁ ∧ P a₀ a) ∨ ∃ fault, x₀ s₀ = .error fault s₀ ∧ x s₁ = .error fault s₁

namespace Reads

variable {s α β : Type} {x₀ x : EStateM Fault s α} {s₀ s₁ : s} {P : α → α → Prop}

theorem pure {a₀ a : α} (h : P a₀ a) : Reads (pure a₀) (pure a) s₀ s₁ P := .inl ⟨a₀, a, rfl, rfl, h⟩

theorem throw {fault : Fault} : Reads (throw fault) (throw fault) s₀ s₁ P := .inr ⟨fault, rfl, rfl⟩

theorem get {f₀ f : s → EStateM Fault s α} (h : Reads (f₀ s₀) (f s₁) s₀ s₁ P) :
    Reads (MonadState.get >>= f₀) (MonadState.get >>= f) s₀ s₁ P := h

theorem sim {T : Pairing → s → s → Prop} {heap : s → Heap} {R : Pairing} {Q : Pairing → α → s → α → s → Prop}
    (hx : Reads x₀ x s₀ s₁ P) (hT : T R s₀ s₁) (hQ : ∀ a₀ a, P a₀ a → Q R a₀ s₀ a s₁) :
    Sim T heap R x₀ x s₀ s₁ Q := by
  unfold Sim
  rcases hx with ⟨a₀, a, hx₀, hx, hP⟩ | ⟨fault, hx₀, hx⟩ <;> rw [hx₀, hx]
  · exact .ok ⟨R, .refl R _, hT, hQ a₀ a hP⟩
  · exact .error ⟨R, .refl R _, hT⟩

/-- What is read first does not change what the rest begins with. -/
theorem bind {T : Pairing → s → s → Prop} {heap : s → Heap} {R : Pairing} {f₀ f : α → EStateM Fault s β}
    {Q : Pairing → β → s → β → s → Prop} (hx : Reads x₀ x s₀ s₁ P) (hT : T R s₀ s₁)
    (hf : ∀ a₀ a, P a₀ a → x s₁ = .ok a s₁ → Sim T heap R (f₀ a₀) (f a) s₀ s₁ Q) :
    Sim T heap R (x₀ >>= f₀) (x >>= f) s₀ s₁ Q := by
  unfold Sim
  rcases hx with ⟨a₀, a, hx₀, hx, hP⟩ | ⟨fault, hx₀, hx⟩
  · rw [bind_of_ok hx₀, bind_of_ok hx]
    exact hf a₀ a hP hx
  · rw [bind_of_error hx₀, bind_of_error hx]
    exact .error ⟨R, .refl R _, hT⟩

end Reads

inductive Reply.Match (R : Pairing) : Reply → Reply → Prop
  | answer {value value' : Value} (h : Value.Match R value value') : Match R (.answer value) (.answer value')
  | halt {value value' : Value} (h : Value.Match R value value') : Match R (.halt value) (.halt value')
  | raise {value value' : Value} (h : Value.Match R value value') : Match R (.raise value) (.raise value')
  | handler {block block' : Value} (h : Value.Match R block block') : Match R (.handler block) (.handler block')
  | restore {token token' value value' : Value} (htoken : Value.Match R token token') (h : Value.Match R value value') :
      Match R (.restore token value) (.restore token' value')

namespace Native

variable {σ : Setting} {R : Pairing} {h₀ h : Heap} {value value' : Value} {args args' : List Value}

theorem reads_mismatch {α : Type} {P : α → α → Prop} (hm : Mirror σ R h₀ h) (hv : Value.Match R value value')
    (expected : Expected) : Reads (mismatch σ.roots expected value) (mismatch σ.roots expected value') h₀ h P := by
  refine .get ?_
  rw [hm.kindOf_eq hv]
  exact .throw

theorem reads_firstArg (hargs : List.Forall₂ (Value.Match R) args args') :
    Reads (firstArg args) (firstArg args') h₀ h (Value.Match R) := by
  cases hargs with
  | nil => exact .throw
  | cons hv _ => exact .pure hv

theorem reads_toFixnum (hm : Mirror σ R h₀ h) (hv : Value.Match R value value') :
    Reads (toFixnum σ.roots value) (toFixnum σ.roots value') h₀ h (· = ·) := by
  unfold toFixnum
  rw [Mirror.toInt?_eq hv]
  split
  · exact .pure rfl
  · exact reads_mismatch hm hv .fixnum

theorem reads_toFloat (hm : Mirror σ R h₀ h) (hv : Value.Match R value value') :
    Reads (toFloat σ.roots value) (toFloat σ.roots value') h₀ h (· = ·) := by
  refine .get ?_
  rw [hm.float?_eq hv]
  split
  · exact .pure rfl
  · exact reads_mismatch hm hv .float

theorem reads_toText (hm : Mirror σ R h₀ h) (hv : Value.Match R value value') :
    Reads (toText σ.roots value) (toText σ.roots value') h₀ h (· = ·) := by
  refine .get ?_
  rw [hm.text?_eq hv]
  split
  · exact .pure rfl
  · exact reads_mismatch hm hv .string

theorem reads_toNumber (hm : Mirror σ R h₀ h) (hv : Value.Match R value value') :
    Reads (toNumber σ.roots value) (toNumber σ.roots value') h₀ h (· = ·) := by
  refine .get ?_
  rw [Mirror.toInt?_eq hv, hm.float?_eq hv]
  split
  · exact .pure rfl
  · exact .pure rfl
  · exact reads_mismatch hm hv .number

theorem reads_widen (hm : Mirror σ R h₀ h) (hv : Value.Match R value value') :
    Reads (widen σ.roots value) (widen σ.roots value') h₀ h (· = ·) := by
  unfold widen
  rw [Mirror.toInt?_eq hv]
  split
  · exact .pure rfl
  · exact reads_toFloat hm hv

theorem match_ofInt? {n : Int} (h : Value.ofInt? n = some value) : Value.Match R value value := by
  obtain ⟨fixnum, -, rfl⟩ := Option.map_eq_some_iff.1 h
  exact .fixnum fixnum

theorem reads_fixnumResult (op : ArithmeticOp) (a b : Int) :
    Reads (fixnumResult op a b) (fixnumResult op a b) h₀ h (Value.Match R) := by
  unfold fixnumResult
  split
  · exact .pure (match_ofInt? ‹_›)
  · exact .throw

theorem reads_checkDivisor (hargs : List.Forall₂ (Value.Match R) args args') (op : ArithmeticOp) :
    Reads (checkDivisor op args) (checkDivisor op args') h₀ h fun _ _ => True := by
  unfold checkDivisor
  split
  · cases hargs with
    | nil => exact .throw
    | cons hv _ =>
      simp only [firstArg, pure_bind, Mirror.toInt?_eq hv]
      split
      · exact .throw
      · exact .pure trivial
  · exact .pure trivial

theorem match_boolean (hm : Mirror σ R h₀ h) (b : Bool) : Value.Match R (σ.roots.boolean b) (σ.roots.boolean b) := by
  cases b
  · exact .ref (hm.root (by simp [Roots.ids]))
  · exact .ref (hm.root (by simp [Roots.ids]))

theorem sim_answer {x₀ x : HeapM Value}
    (hx : Heap.Sim σ R x₀ x h₀ h fun R' value _ value' _ => Value.Match R' value value') :
    Heap.Sim σ R (do return Reply.answer (← x₀)) (do return Reply.answer (← x)) h₀ h
      fun R' reply _ reply' _ => Reply.Match R' reply reply' :=
  hx.bind fun _ _ _ _ _ _ hm' hv _ => .pure hm' (.answer hv)

/-- A native answers alike in both heaps. -/
theorem sim_run (hm : Mirror σ R h₀ h) (native : Native) {receiver receiver' : Value}
    (hreceiver : Value.Match R receiver receiver') (hargs : List.Forall₂ (Value.Match R) args args') :
    Heap.Sim σ R (native.run σ.roots receiver args) (native.run σ.roots receiver' args') h₀ h
      fun R' reply _ reply' _ => Reply.Match R' reply reply' := by
  have hboolean (b : Bool) : Heap.Sim σ R (pure (Reply.answer (σ.roots.boolean b)))
      (pure (Reply.answer (σ.roots.boolean b))) h₀ h fun R' reply _ reply' _ => Reply.Match R' reply reply' :=
    .pure hm (.answer (match_boolean hm b))
  cases native with
  | fixnumArithmetic op =>
    refine (reads_checkDivisor hargs op).bind hm fun _ _ _ _ => (reads_toFixnum hm hreceiver).bind hm ?_
    rintro a _ rfl -
    refine (reads_firstArg hargs).bind hm fun arg arg' harg _ => (reads_toNumber hm harg).bind hm ?_
    rintro b _ rfl -
    cases b with
    | fixnum b =>
      exact (reads_fixnumResult op a b).bind hm fun _ _ hv _ => .pure hm (.answer hv)
    | float b => exact sim_answer (Heap.sim_newFloat hm _)
  | fixnumComparison relation =>
    refine (reads_toFixnum hm hreceiver).bind hm ?_
    rintro a _ rfl -
    refine (reads_firstArg hargs).bind hm fun arg arg' harg _ => (reads_toNumber hm harg).bind hm ?_
    rintro b _ rfl -
    cases b with
    | fixnum b => exact hboolean _
    | float b => exact hboolean _
  | floatArithmetic op =>
    refine (reads_toFloat hm hreceiver).bind hm ?_
    rintro a _ rfl -
    refine (reads_firstArg hargs).bind hm fun arg arg' harg _ => (reads_widen hm harg).bind hm ?_
    rintro b _ rfl -
    exact sim_answer (Heap.sim_newFloat hm _)
  | floatComparison relation =>
    refine (reads_toFloat hm hreceiver).bind hm ?_
    rintro a _ rfl -
    refine (reads_firstArg hargs).bind hm fun arg arg' harg _ => (reads_widen hm harg).bind hm ?_
    rintro b _ rfl -
    exact hboolean _
  | concatenate =>
    refine (reads_toText hm hreceiver).bind hm ?_
    rintro a _ rfl -
    refine (reads_firstArg hargs).bind hm fun arg arg' harg _ => (reads_toText hm harg).bind hm ?_
    rintro b _ rfl -
    exact sim_answer (Heap.sim_newString hm _)
  | sameText =>
    refine (reads_toText hm hreceiver).bind hm ?_
    rintro a _ rfl -
    refine (reads_firstArg hargs).bind hm fun arg arg' harg _ => .get ?_
    rw [hm.text?_eq harg]
    exact hboolean _
  | textSize =>
    refine (reads_toText hm hreceiver).bind hm ?_
    rintro s _ rfl -
    split
    · exact .pure hm (.answer (match_ofInt? ‹_›))
    · exact .throw hm
  | printString =>
    refine .get ?_
    rw [hm.display_eq hreceiver]
    exact sim_answer (Heap.sim_newString hm _)
  | identical =>
    refine (reads_firstArg hargs).bind hm fun arg arg' harg _ => ?_
    have heq : (receiver' == arg') = (receiver == arg) := by
      cases hreceiver with
      | fixnum n => cases harg <;> rfl
      | ref hab =>
        cases harg with
        | fixnum n => rfl
        | ref hab' =>
          rw [Bool.eq_iff_iff, beq_iff_eq, beq_iff_eq, Value.ref.injEq, Value.ref.injEq]
          exact (Relator.rel_eq hm.unique hab hab').symm
    rw [heq]
    exact hboolean _
  | halt => exact (reads_firstArg hargs).bind hm fun _ _ hv _ => .pure hm (.halt hv)
  | raise => exact (reads_firstArg hargs).bind hm fun _ _ hv _ => .pure hm (.raise hv)
  | setHandler =>
    refine (reads_firstArg hargs).bind hm fun arg arg' harg _ => .get ?_
    have hblock : (h.object? arg').any (·.shape.isBlock) = (h₀.object? arg).any (·.shape.isBlock) := by
      have hobject := hm.object? harg
      generalize h₀.object? arg = object at hobject
      generalize h.object? arg' = object' at hobject
      cases hobject with
      | none => rfl
      | some ho => simp [ho.isBlock_eq]
    rw [hblock]
    split
    · exact .pure hm (.handler harg)
    · exact (reads_mismatch (P := fun _ _ => False) hm harg .block).sim hm fun _ _ hfalse => hfalse.elim
  | restore =>
    cases hargs with
    | nil => exact .throw hm
    | cons htoken hrest =>
      cases hrest with
      | nil => exact .throw hm
      | cons hv hrest =>
        cases hrest with
        | nil => exact .pure hm (.restore htoken hv)
        | cons _ _ => exact .throw hm

end Native

end ProtoVm
