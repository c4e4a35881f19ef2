import Mathlib.Data.List.Forall2
import Mathlib.Order.Defs.PartialOrder
import ProtoVm.Proofs.Making

/-!
# Matching states

The same program leaves other ids, versions and shape numbers behind when other programs run beside it.
A pairing says which object of the one run stands for which object of the other, and two states match if
they are the same up to the pairing and up to what no program can see.
-/

namespace ProtoVm

/-! ## Related options and lists -/

theorem optionRel_imp {α β : Type} {P Q : α → β → Prop} (himp : ∀ a b, P a b → Q a b)
    {x : Option α} {y : Option β} (h : Option.Rel P x y) : Option.Rel Q x y := by
  cases h with
  | some h => exact .some (himp _ _ h)
  | none => exact .none

theorem rel_getElem? {α β : Type} {P : α → β → Prop} {xs : List α} {ys : List β} (h : List.Forall₂ P xs ys)
    (index : Nat) : Option.Rel P xs[index]? ys[index]? := by
  induction h generalizing index with
  | nil => exact .none
  | cons h hrest ih =>
    cases index with
    | zero => exact .some h
    | succ index => exact ih index

theorem rel_set {α β : Type} {P : α → β → Prop} {xs : List α} {ys : List β} (h : List.Forall₂ P xs ys)
    (index : Nat) {x : α} {y : β} (hxy : P x y) : List.Forall₂ P (xs.set index x) (ys.set index y) := by
  induction h generalizing index with
  | nil => exact .nil
  | cons h hrest ih =>
    cases index with
    | zero => exact .cons hxy hrest
    | succ index => exact .cons h (ih index)

/-! ## Code by the site where it was written -/

theorem Code.finalize_finalize (code : Code) : code.finalize.finalize = code.finalize := by
  rcases code with ⟨bytes, literals, finalized⟩
  cases finalized <;> rfl

/-- Closing a unit closes the units of its object literals and leaves these as they are otherwise. -/
theorem Code.literal_finalize {code : Code} {index : Nat} {kind : ObjectKind} {params : List String}
    {inner : Option Code} (h : code.literals[index]? = some (.object kind params inner)) :
    ∃ inner', code.finalize.literals[index]? = some (.object kind params inner') ∧
      (inner'.getD {}).finalize = (inner.getD {}).finalize := by
  rcases code with ⟨bytes, literals, finalized⟩
  cases finalized with
  | true => exact ⟨inner, h, rfl⟩
  | false =>
    cases inner with
    | none => exact ⟨none, by simp_all [Code.finalize, finalizeLiterals_eq_map, Literal.finalize], rfl⟩
    | some unit =>
      refine ⟨some unit.finalize, ?_, unit.finalize_finalize⟩
      simp_all [Code.finalize, finalizeLiterals_eq_map, Literal.finalize]

/-- The closed unit of the object literal at `index`. -/
def Code.part? (code : Code) (index : Nat) : Option Code :=
  match code.literals[index]? with
  | some (.object _ _ inner) => some (inner.getD {}).finalize
  | _ => none

/-- The closed code that was written at a site. -/
def codeAt? (units : List Body) : Site → Option Code
  | [] => none
  | number :: path =>
    path.foldl (fun code index => code.bind (·.part? index))
      ((units.find? (·.site == [number])).map (·.code.finalize))

theorem codeAt?_append {units : List Body} {site : Site} (h : site ≠ []) (index : Nat) :
    codeAt? units (site ++ [index]) = (codeAt? units site).bind (·.part? index) := by
  cases site with
  | nil => exact absurd rfl h
  | cons number path => simp [codeAt?]

/-- The body comes from one of the units, as its site says. -/
def Body.Written (units : List Body) (body : Body) : Prop :=
  codeAt? units body.site = some body.code.finalize

namespace Body.Written

variable {units : List Body} {body body' : Body} {index : Nat} {kind kind' : ObjectKind}
  {params params' : List String} {inner inner' : Option Code}

theorem site_ne_nil (h : body.Written units) : body.site ≠ [] := by
  intro hsite
  rw [Written, hsite] at h
  cases h

theorem finalize (h : body.Written units) :
    Body.Written units { body with code := body.code.finalize } := by
  rw [Written, Code.finalize_finalize]
  exact h

/-- The unit of an object literal comes from where the literal does. -/
theorem part (h : body.Written units)
    (hl : body.code.literals[index]? = some (.object kind params inner)) :
    Body.Written units ⟨(inner.getD {}).finalize, body.site ++ [index]⟩ := by
  obtain ⟨closed, hclosed, heq⟩ := Code.literal_finalize hl
  rw [Written, codeAt?_append h.site_ne_nil, h, Option.bind_some, Code.part?, hclosed]
  simp only [heq, Code.finalize_finalize]

/-- Two bodies written at one site have the same object literals, but for units not closed yet. -/
theorem literal_eq (h : body.Written units) (h' : body'.Written units)
    (hsite : body'.site = body.site)
    (hl : body.code.literals[index]? = some (.object kind params inner))
    (hl' : body'.code.literals[index]? = some (.object kind' params' inner')) :
    kind' = kind ∧ params' = params ∧ (inner'.getD {}).finalize = (inner.getD {}).finalize := by
  obtain ⟨closed, hclosed, heq⟩ := Code.literal_finalize hl
  obtain ⟨closed', hclosed', heq'⟩ := Code.literal_finalize hl'
  have hcode : body'.code.finalize = body.code.finalize := by
    rw [Written, hsite, h] at h'
    exact (Option.some.inj h').symm
  rw [hcode, hclosed] at hclosed'
  cases hclosed'
  exact ⟨rfl, rfl, heq'.symm.trans heq⟩

end Body.Written

/-! ## Pairings -/

/-- What all processes find when they begin. -/
structure Ground where
  base : Heap
  roots : Roots
  units : List Body
  roots_issued : ∀ id ∈ roots.ids, base.Issued id
  strings_issued : ∀ s id, base.strings.lookup s = some id → base.Issued id

/-- Two runs of one process from the same ground: on its own, and beside others. -/
structure Setting extends Ground where
  /-- The number of the process when it is on its own. -/
  lone : ProcessId
  /-- The number of the process when it is beside others. -/
  shared : ProcessId

/-- Which object of the lone run stands for which of the shared run. -/
structure Pairing where
  /-- Objects that the process made for itself. -/
  own : ObjectId → ObjectId → Prop
  /-- Objects that all processes have in common. -/
  common : ObjectId → ObjectId → Prop

namespace Pairing

def pairs (R : Pairing) (a b : ObjectId) : Prop := R.own a b ∨ R.common a b

/-- The pairing grows. -/
instance : Preorder Pairing where
  le R R' := (∀ a b, R.own a b → R'.own a b) ∧ ∀ a b, R.common a b → R'.common a b
  le_refl _ := ⟨fun _ _ h => h, fun _ _ h => h⟩
  le_trans _ _ _ h h' := ⟨fun a b hab => h'.1 a b (h.1 a b hab), fun a b hab => h'.2 a b (h.2 a b hab)⟩

variable {R R' : Pairing} {a b x y : ObjectId}

theorem pairs_mono (hR : R ≤ R') (h : R.pairs a b) : R'.pairs a b := h.imp (hR.1 a b) (hR.2 a b)

/-- One more object of the process itself. -/
def addOwn (R : Pairing) (a b : ObjectId) : Pairing where
  own x y := R.own x y ∨ x = a ∧ y = b
  common := R.common

/-- One more object that is common to all. -/
def addCommon (R : Pairing) (a b : ObjectId) : Pairing where
  own := R.own
  common x y := R.common x y ∨ x = a ∧ y = b

theorem le_addOwn (R : Pairing) (a b : ObjectId) : R ≤ R.addOwn a b :=
  ⟨fun _ _ => .inl, fun _ _ h => h⟩

theorem le_addCommon (R : Pairing) (a b : ObjectId) : R ≤ R.addCommon a b :=
  ⟨fun _ _ h => h, fun _ _ => .inl⟩

theorem pairs_addOwn (h : (R.addOwn a b).pairs x y) : R.pairs x y ∨ x = a ∧ y = b := by
  rcases h with (h | h) | h
  · exact .inl (.inl h)
  · exact .inr h
  · exact .inl (.inr h)

theorem pairs_addCommon (h : (R.addCommon a b).pairs x y) : R.pairs x y ∨ x = a ∧ y = b := by
  rcases h with h | h | h
  · exact .inl (.inl h)
  · exact .inl (.inr h)
  · exact .inr h

end Pairing

/-! ## Values and objects -/

inductive Value.Match (R : Pairing) : Value → Value → Prop
  | fixnum (n : Fixnum) : Match R (.fixnum n) (.fixnum n)
  | ref {a b : ObjectId} (h : R.pairs a b) : Match R (.ref a) (.ref b)

/-- A token of the process names it by its number in each run. -/
inductive Payload.Match (σ : Setting) (R : Pairing) : Payload → Payload → Prop
  | none : Match σ R .none .none
  | float (x : Float) : Match σ R (.float x) (.float x)
  | text (s : String) : Match σ R (.text s) (.text s)
  | activation {receiver receiver' : Value} (h : Value.Match R receiver receiver') :
      Match σ R (.activation receiver) (.activation receiver')
  | token (index : Nat) : Match σ R (.token σ.lone index) (.token σ.shared index)
  | foreign {owner : ProcessId} (index : Nat) (hlone : owner ≠ σ.lone) (hshared : owner ≠ σ.shared) :
      Match σ R (.token owner index) (.token owner index)

/-- The bindings of a method may have shapes of different number. -/
inductive Behavior.Match (σ : Setting) : Behavior → Behavior → Prop
  | data : Match σ .data .data
  | method {body : Body} (params : List String) (isBlock : Bool) (bindings bindings' : ShapeId)
      (h : body.Written σ.units) :
      Match σ (.method ⟨body, params, isBlock, bindings⟩) (.method ⟨body, params, isBlock, bindings'⟩)
  | native (native : Native) : Match σ (.native native) (.native native)
  | assignment : Match σ .assignment .assignment

/-- The objects may have shapes of different number and version. -/
structure Object.Match (σ : Setting) (R : Pairing) (object object' : Object) : Prop where
  slots_eq : object'.shape.slots = object.shape.slots
  parents_eq : object'.shape.parents = object.shape.parents
  behavior : Behavior.Match σ object.shape.behavior object'.shape.behavior
  slotValues : List.Forall₂ (Value.Match R) object.slotValues object'.slotValues
  parentValues : List.Forall₂ (Value.Match R) object.parentValues object'.parentValues
  scope : Option.Rel (Value.Match R) object.scope object'.scope
  payload : Payload.Match σ R object.payload object'.payload

theorem Value.Match.mono {R R' : Pairing} (hR : R ≤ R') (value value' : Value) (h : Value.Match R value value') :
    Value.Match R' value value' := by
  cases h with
  | fixnum n => exact .fixnum n
  | ref h => exact .ref (Pairing.pairs_mono hR h)

theorem Value.Match.all_mono {R R' : Pairing} (hR : R ≤ R') {values values' : List Value}
    (h : List.Forall₂ (Value.Match R) values values') : List.Forall₂ (Value.Match R') values values' :=
  h.imp (Value.Match.mono hR)

namespace Object.Match

variable {σ : Setting} {R R' : Pairing} {object object' : Object}

theorem mono (hR : R ≤ R') (object object' : Object) (h : Object.Match σ R object object') :
    Object.Match σ R' object object' := by
  refine ⟨h.slots_eq, h.parents_eq, h.behavior, Value.Match.all_mono hR h.slotValues,
    Value.Match.all_mono hR h.parentValues, optionRel_imp (Value.Match.mono hR) h.scope, ?_⟩
  have hpayload := h.payload
  generalize object.payload = payload at hpayload
  generalize object'.payload = payload' at hpayload
  cases hpayload with
  | none => exact .none
  | float x => exact .float x
  | text s => exact .text s
  | activation h => exact .activation (h.mono hR)
  | token index => exact .token index
  | foreign index hlone hshared => exact .foreign index hlone hshared

theorem empty : Object.Match σ R {} {} := ⟨rfl, rfl, .data, .nil, .nil, .none, .none⟩

theorem slot? (h : Object.Match σ R object object') (name : String) :
    Option.Rel (Value.Match R) (object.slot? name) (object'.slot? name) := by
  unfold Object.slot?
  rw [h.slots_eq]
  cases object.shape.slots.index? name with
  | none => exact .none
  | some index => exact rel_getElem? h.slotValues index

theorem parent? (h : Object.Match σ R object object') (name : String) :
    Option.Rel (Value.Match R) (object.parent? name) (object'.parent? name) := by
  unfold Object.parent?
  rw [h.parents_eq]
  cases object.shape.parents.index? name with
  | none => exact .none
  | some index => exact rel_getElem? h.parentValues index

theorem edges (h : Object.Match σ R object object') :
    List.Forall₂ (Value.Match R) object.edges object'.edges := by
  unfold Object.edges
  refine List.rel_append ?_ h.parentValues
  have hscope := h.scope
  cases hscope : object.scope <;> cases hscope' : object'.scope <;> simp_all

theorem setSlot (h : Object.Match σ R object object') (index : Nat) {value value' : Value}
    (hv : Value.Match R value value') :
    Object.Match σ R (object.setSlot index value) (object'.setSlot index value') :=
  ⟨h.slots_eq, h.parents_eq, h.behavior, rel_set h.slotValues index hv, h.parentValues, h.scope, h.payload⟩

theorem addSlot (h : Object.Match σ R object object') (name : String) {value value' : Value}
    (hv : Value.Match R value value') :
    Object.Match σ R (object.addSlot name value) (object'.addSlot name value') := by
  unfold Object.addSlot
  rw [h.slots_eq]
  split
  · exact h.setSlot _ hv
  · exact ⟨rfl, h.parents_eq, h.behavior, List.rel_append h.slotValues (.cons hv .nil), h.parentValues,
      h.scope, h.payload⟩

theorem addParent (h : Object.Match σ R object object') (name : String) {value value' : Value}
    (hv : Value.Match R value value') :
    Object.Match σ R (object.addParent name value) (object'.addParent name value') := by
  unfold Object.addParent
  rw [h.parents_eq]
  split
  · exact ⟨h.slots_eq, h.parents_eq, h.behavior, h.slotValues, rel_set h.parentValues _ hv, h.scope, h.payload⟩
  · exact ⟨h.slots_eq, rfl, h.behavior, h.slotValues, List.rel_append h.parentValues (.cons hv .nil),
      h.scope, h.payload⟩

theorem stamp (h : Object.Match σ R object object') (id id' : ShapeId) (version version' : Nat) :
    Object.Match σ R (object.stamp id version) (object'.stamp id' version') :=
  ⟨h.slots_eq, h.parents_eq, h.behavior, h.slotValues, h.parentValues, h.scope, h.payload⟩

/-- A copy in another scope. -/
theorem withScope (h : Object.Match σ R object object') {scope scope' : Value}
    (hs : Value.Match R scope scope') :
    Object.Match σ R { object with scope := some scope } { object' with scope := some scope' } :=
  ⟨h.slots_eq, h.parents_eq, h.behavior, h.slotValues, h.parentValues, .some hs, h.payload⟩

theorem withPayload (h : Object.Match σ R object object') {payload payload' : Payload}
    (hp : Payload.Match σ R payload payload') :
    Object.Match σ R { object with payload } { object' with payload := payload' } :=
  ⟨h.slots_eq, h.parents_eq, h.behavior, h.slotValues, h.parentValues, h.scope, hp⟩

theorem isActivation_eq (h : Object.Match σ R object object') :
    object'.isActivation = object.isActivation := by
  have hpayload := h.payload
  unfold Object.isActivation
  generalize object.payload = payload at hpayload
  generalize object'.payload = payload' at hpayload
  cases hpayload <;> rfl

theorem receiver? (h : Object.Match σ R object object') :
    Option.Rel (Value.Match R) object.payload.receiver? object'.payload.receiver? := by
  have hpayload := h.payload
  generalize object.payload = payload at hpayload
  generalize object'.payload = payload' at hpayload
  cases hpayload with
  | activation h => exact .some h
  | _ => exact .none

end Object.Match

/-- The methods run the same code with the same parameters. -/
structure Method.Match (σ : Setting) (method method' : Method) : Prop where
  body_eq : method'.body = method.body
  params_eq : method'.params = method.params
  isBlock_eq : method'.isBlock = method.isBlock
  written : method.body.Written σ.units

theorem Object.Match.method? {σ : Setting} {R : Pairing} {object object' : Object}
    (h : Object.Match σ R object object') :
    Option.Rel (Method.Match σ) object.shape.method? object'.shape.method? := by
  have hbehavior := h.behavior
  unfold Shape.method?
  generalize object.shape.behavior = behavior at hbehavior
  generalize object'.shape.behavior = behavior' at hbehavior
  cases hbehavior with
  | method params isBlock bindings bindings' h => exact .some ⟨rfl, rfl, rfl, h⟩
  | _ => exact .none

theorem Object.Match.isBlock_eq {σ : Setting} {R : Pairing} {object object' : Object}
    (h : Object.Match σ R object object') : object'.shape.isBlock = object.shape.isBlock := by
  have hmethod := h.method?
  unfold Shape.isBlock
  generalize object.shape.method? = method at hmethod
  generalize object'.shape.method? = method' at hmethod
  cases hmethod with
  | some h => simp [h.isBlock_eq]
  | none => rfl

/-! ## Processes -/

inductive FrameKind.Match (R : Pairing) : FrameKind → FrameKind → Prop
  | call : Match R .call .call
  | handler {error error' : Value} (h : Value.Match R error error') : Match R (.handler error) (.handler error')

structure Frame.Match (σ : Setting) (R : Pairing) (frame frame' : Frame) : Prop where
  body_eq : frame'.body = frame.body
  written : frame.body.Written σ.units
  ip_eq : frame'.ip = frame.ip
  stack : List.Forall₂ (Value.Match R) frame.stack frame'.stack
  activation : Value.Match R frame.activation frame'.activation
  receiver : Value.Match R frame.receiver frame'.receiver
  handler : Option.Rel (Value.Match R) frame.handler frame'.handler
  kind : FrameKind.Match R frame.kind frame'.kind
  records : List.Forall₂ R.own frame.records frame'.records
  captured_eq : frame'.captured = frame.captured

/-- The processes ended alike for everyone who looks at them. -/
structure Outcome.Match (outcome outcome' : Outcome) : Prop where
  isError_eq : outcome'.isError = outcome.isError
  cause?_eq : outcome'.cause? = outcome.cause?
  display_eq : outcome'.display = outcome.display

structure Process.Match (σ : Setting) (R : Pairing) (process process' : Process) : Prop where
  lone_eq : process.id = σ.lone
  shared_eq : process'.id = σ.shared
  frames : List.Forall₂ (Frame.Match σ R) process.frames process'.frames
  parked : List.Forall₂ (Option.Rel (List.Forall₂ (Frame.Match σ R))) process.parked process'.parked
  outcome : Option.Rel Outcome.Match process.outcome process'.outcome

section

variable {σ : Setting} {R R' : Pairing}

theorem Frame.Match.mono (hR : R ≤ R') (frame frame' : Frame) (h : Frame.Match σ R frame frame') :
    Frame.Match σ R' frame frame' := by
  refine ⟨h.body_eq, h.written, h.ip_eq, Value.Match.all_mono hR h.stack, h.activation.mono hR,
    h.receiver.mono hR, optionRel_imp (Value.Match.mono hR) h.handler, ?_, h.records.imp hR.1, h.captured_eq⟩
  have hkind := h.kind
  generalize frame.kind = kind at hkind
  generalize frame'.kind = kind' at hkind
  cases hkind with
  | call => exact .call
  | handler h => exact .handler (h.mono hR)

theorem Process.Match.mono (hR : R ≤ R') {process process' : Process} (h : Process.Match σ R process process') :
    Process.Match σ R' process process' :=
  ⟨h.lone_eq, h.shared_eq, h.frames.imp (Frame.Match.mono hR),
    h.parked.imp fun _ _ => optionRel_imp fun _ _ hs => hs.imp (Frame.Match.mono hR), h.outcome⟩

theorem Process.Match.isFinished_eq {process process' : Process} (h : Process.Match σ R process process') :
    process'.isFinished = process.isFinished := by
  unfold Process.isFinished
  have houtcome := h.outcome
  cases ho : process.outcome <;> cases ho' : process'.outcome <;> simp_all

theorem Frame.Match.releasable {frame frame' : Frame} (h : Frame.Match σ R frame frame') :
    List.Forall₂ R.own frame.releasable frame'.releasable := by
  unfold Frame.releasable
  rw [h.captured_eq]
  split
  · exact .nil
  · exact h.records

theorem Frame.Match.push {frame frame' : Frame} (h : Frame.Match σ R frame frame') {value value' : Value}
    (hv : Value.Match R value value') : Frame.Match σ R (frame.push value) (frame'.push value') :=
  ⟨h.body_eq, h.written, h.ip_eq, .cons hv h.stack, h.activation, h.receiver, h.handler, h.kind, h.records,
    h.captured_eq⟩

theorem Frame.Match.withStack {frame frame' : Frame} (h : Frame.Match σ R frame frame')
    {stack stack' : List Value} (hs : List.Forall₂ (Value.Match R) stack stack') :
    Frame.Match σ R { frame with stack } { frame' with stack := stack' } :=
  ⟨h.body_eq, h.written, h.ip_eq, hs, h.activation, h.receiver, h.handler, h.kind, h.records, h.captured_eq⟩

theorem Frame.Match.withIp {frame frame' : Frame} (h : Frame.Match σ R frame frame') (ip : Nat) :
    Frame.Match σ R { frame with ip } { frame' with ip } :=
  ⟨h.body_eq, h.written, rfl, h.stack, h.activation, h.receiver, h.handler, h.kind, h.records, h.captured_eq⟩

theorem Frame.Match.capture {frame frame' : Frame} (h : Frame.Match σ R frame frame') :
    Frame.Match σ R { frame with captured := true } { frame' with captured := true } :=
  ⟨h.body_eq, h.written, h.ip_eq, h.stack, h.activation, h.receiver, h.handler, h.kind, h.records, rfl⟩

theorem Process.Match.allFrames {process process' : Process} (h : Process.Match σ R process process') :
    List.Forall₂ (Frame.Match σ R) process.allFrames process'.allFrames := by
  unfold Process.allFrames
  refine List.rel_append (List.rel_reverse h.frames) (List.rel_flatMap h.parked fun stack stack' hs => ?_)
  cases hs with
  | some hs => exact List.rel_reverse hs
  | none => exact .nil

theorem Process.Match.handler? {process process' : Process} (h : Process.Match σ R process process') :
    Option.Rel (Value.Match R) process.handler? process'.handler? := by
  unfold Process.handler?
  have hframes := h.frames
  generalize process.frames = frames at hframes
  generalize process'.frames = frames' at hframes
  induction hframes with
  | nil => exact .none
  | @cons frame frame' rest rest' hframe hrest ih =>
    have hhandler := hframe.handler
    rw [List.findSome?_cons, List.findSome?_cons]
    cases hh : frame.handler <;> cases hh' : frame'.handler <;> rw [hh, hh'] at hhandler
    · exact ih
    · cases hhandler
    · cases hhandler
    · exact hhandler

/-- The arguments of a call are bound alike. -/
theorem Method.Match.bindingValues {method method' : Method} (h : Method.Match σ method method')
    {args args' : List Value} (hargs : List.Forall₂ (Value.Match R) args args') {nil nil' : Value}
    (hnil : Value.Match R nil nil') :
    List.Forall₂ (Value.Match R) (method.bindingValues args nil) (method'.bindingValues args' nil') := by
  have hlayout : method'.bindingLayout = method.bindingLayout := by
    rw [Method.bindingLayout, Method.bindingLayout, h.params_eq]
  rw [Heap.bindingValues_eq_foldl, Heap.bindingValues_eq_foldl, hlayout, h.params_eq]
  have hstart : List.Forall₂ (Value.Match R) (List.replicate method.bindingLayout.length nil)
      (List.replicate method.bindingLayout.length nil') := by
    generalize method.bindingLayout.length = count
    induction count with
    | zero => exact .nil
    | succ count ih => exact .cons hnil ih
  generalize List.replicate method.bindingLayout.length nil = values at hstart ⊢
  generalize List.replicate method.bindingLayout.length nil' = values' at hstart ⊢
  generalize method.params = params
  induction hargs generalizing params values values' with
  | nil => simpa using hstart
  | cons harg hrest ih =>
    cases params with
    | nil => simpa using hstart
    | cons param params =>
      simp only [List.zip_cons_cons, List.foldl_cons]
      refine ih _ _ ?_ params
      unfold Heap.fill
      cases method.bindingLayout.index? param with
      | some index => exact rel_set hstart index harg
      | none => exact hstart

end

end ProtoVm
