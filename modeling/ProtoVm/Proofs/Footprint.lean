import ProtoVm.Proofs.RunRules

/-!
# Footprints

What an operation may do to objects that are there already is written down in a mandate: which of them it may
assign to and which it may edit. An instruction needs a mandate for one object at most, and one that is read off
before the instruction is run.
-/

namespace ProtoVm

/-- The edit that an instruction of this kind makes. -/
def SlotKind.edit (name : String) (value : Value) : SlotKind → Edit
  | .normal => .addSlot name value
  | .parent => .addParent name value

namespace Heap

/-- One touch of a heap that the mandate permits. Nobody needs a mandate to make objects and to give them back. -/
inductive Touch (l : Mandate) (heap : Heap) : Heap → Prop
  | make {object : Object} {id : ObjectId} {heap' : Heap} (h : heap.Makes (fun _ => True) l.copies object)
      (hok : allocate object heap = .ok id heap') : Touch l heap heap'
  | release (id : ObjectId) : Touch l heap (heap.release id)
  | assign {id : ObjectId} (h : l.assigns id) (index : Nat) (value : Value) :
      Touch l heap (heap.update id (·.setSlot index value))
  | edit {id : ObjectId} (h : l.edits id) (edit : Edit) : Touch l heap (heap.restructure id edit.apply)
  | aside {heap' : Heap} (hcells : heap'.cells = heap.cells) (hfree : heap'.free = heap.free)
      (hlimit : heap'.limit = heap.limit) (hversion : heap'.version = heap.version)
      (hunit : heap.nextUnit ≤ heap'.nextUnit) : Touch l heap heap'

abbrev Touches (l : Mandate) : Heap → Heap → Prop := Relation.ReflTransGen (Touch l)

/-- All faults may come up, and texts may be listed. -/
def RunRule.touches (l : Mandate) : RunRule where
  toMandate := l
  Holds := Touches l
  faults _ := True
  refl _ := .refl
  trans := .trans
  bodies _ := True
  lists := True
  operational _ := trivial
  make h hok := .single (.make h hok)
  withdraw h hok := .tail (.single (.make h hok)) (.release _)
  assign h _ index value := .single (.assign h index value)
  edit h _ edit := .single (.edit h edit)
  list _ _ _ _ := .single (.aside rfl rfl rfl rfl (Nat.le_refl _))
  aside hcells hfree hlimit hversion hunit _ := .single (.aside hcells hfree hlimit hversion hunit)
  release _ id := .single (.release id)
  anyFault _ := trivial
  anyBody _ := trivial

end Heap

/-! ## Instructions -/

namespace Exec

variable {m : Machine} {ctx : Context}

theorem steady_addition : Steady (addition ctx) m fun _ k => k.heap = m.heap := by
  refine steady_pop.bind fun value m₁ _ h₁ => steady_pop.bind fun slot m₂ _ h₂ => steady_pop.bind
    fun target m₃ _ h₃ => (steady_name slot).bind fun name m₄ _ h₄ => .pure ?_
  rw [h₄, h₃, h₂, h₁]

/-- With its operands at hand an edit succeeds. -/
theorem addSlot_of_addition (kind : SlotKind) {id : ObjectId} {name : String} {value : Value} {k : Machine}
    (hframes : m.process.frames ≠ []) (h : addition ctx m = .ok (.ref id, name, value) k) :
    ∃ m', addSlot ctx kind m = .ok () m' ∧
      m'.heap = m.heap.restructure id (kind.edit name (m.heap.effective value)).apply := by
  obtain ⟨hstays, hheap⟩ := steady_addition.of_ok h
  obtain ⟨top, callers, hm⟩ := List.exists_cons_of_ne_nil hframes
  obtain ⟨top', hk, -⟩ := hstays.frames hm
  have hpush (heap : Heap) : push (.ref id) { k with heap } =
      .ok () { k with heap, process := { k.process with frames := top'.push (.ref id) :: callers } } := by
    simp [push, updateFrame, hk]
  rw [addSlot_eq, bind_of_ok h, ← hheap]
  cases kind with
  | normal => exact ⟨_, hpush _, rfl⟩
  | parent => exact ⟨_, hpush _, rfl⟩

end Exec

namespace Machine

open Exec

variable {l : Mandate} {m : Machine} {ctx : Context}

/-- An instruction needs a mandate for the object that it assigns to or edits and for no other, whether it succeeds or
fails. -/
theorem touches_advance (hassigns : ∀ id, m.assigned? ctx = some id → l.assigns id)
    (hedits : ∀ id, m.edited? ctx = some id → l.edits id) : Heap.Touches l m.heap (m.advance ctx).heap :=
  (Heap.RunRule.advance ⟨hassigns, hedits, fun _ _ => trivial⟩ : (Heap.RunRule.touches l).Holds _ _)

/-- An instruction that edits an object does nothing else to the heap. -/
theorem advance_heap_of_edited {id : ObjectId} (h : m.edited? ctx = some id) :
    ∃ edit : Edit, (m.advance ctx).heap = m.heap.restructure id edit.apply := by
  unfold edited? at h
  split at h
  · rename_i kind fetched hfetch
    split at h
    · rename_i target name value k haddition
      cases h
      obtain ⟨⟨top, callers, hframes, -⟩, hheap, hprocess⟩ := fetch_past.of_ok hfetch
      have hne : fetched.process.frames ≠ [] := by
        rw [hprocess]
        simp [Process.past, hframes]
      obtain ⟨m', hstep, hm'⟩ := addSlot_of_addition kind hne haddition
      refine ⟨kind.edit name (m.heap.effective value), ?_⟩
      have hexecute : execute ctx (.addSlot kind) fetched = .ok () m' := hstep
      rw [← hheap, ← hm', advance, step_eq, bind_of_ok hfetch, hexecute]
    · cases h
  · cases h

end Machine

/-! ## Requests -/

namespace Heap

/-- On the way the object is edited. -/
def Revises (l : Mandate) (id : ObjectId) (heap heap' : Heap) : Prop :=
  ∃ before, ∃ edit : Edit, Touches l heap before ∧ Touches l (before.restructure id edit.apply) heap'

theorem revises_restructure {l : Mandate} (heap : Heap) (id : ObjectId) (edit : Edit) :
    Revises l id heap (heap.restructure id edit.apply) := ⟨heap, edit, .refl, .refl⟩

/-- The heap that an operation leaves behind, whether it succeeds or fails. -/
def left {α : Type} (x : HeapM α) (heap : Heap) : Heap :=
  match x heap with
  | .ok _ heap' | .error _ heap' => heap'

theorem touches_left {α : Type} {l : Mandate} {x : HeapM α} {heap : Heap} (h : (RunRule.touches l).Governs x heap) :
    Touches l heap (left x heap) := by
  unfold left
  split
  · exact h.of_ok ‹_›
  · exact (h.of_error ‹_›).2

end Heap

namespace Request

open Heap

variable {l : Mandate} {roots : Roots} {heap : Heap} {r : Request}

theorem touches_left_run (hcopies : ∀ copy, r = .allocate copy → copy ∈ l.copies) (hassigns : ∀ id, l.assigns id)
    (hedits : ∀ id, r.edited? heap = some id → l.edits id) : Touches l heap (left (r.run roots) heap) :=
  touches_left (Rule.governs_request
    { method := fun _ _ => trivial
      unit := fun _ _ _ _ => trivial
      copy := hcopies
      assign := fun target _ _ _ => hassigns target
      edit := hedits
      list := fun _ _ => trivial })

theorem revises_left_install {target : ObjectId} {native : Native} (natives : List Native) {object : ObjectId}
    {middle : Heap} (hok : Heap.newObjectWith (.native native) heap = .ok object middle) (h : l.edits target) :
    Revises l target heap (left ((install target (native :: natives)).run roots) heap) := by
  have hnative : (RunRule.touches l).Governs (Heap.newObjectWith (.native native)) heap :=
    Rule.governs_newObjectWith (by nofun)
  have hbefore : Touches l heap middle := hnative.of_ok hok
  refine ⟨middle, .addSlot native.selector (.ref object), hbefore, ?_⟩
  have hafter : (RunRule.touches l).Governs (do Roots.install target natives; return ([] : List Value))
      (middle.addSlot target native.selector (.ref object)) :=
    (Rule.governs_install h natives).bind fun _ _ _ => .pure _
  have heq : (install target (native :: natives)).run roots heap =
      (do Roots.install target natives; return ([] : List Value))
        (middle.addSlot target native.selector (.ref object)) := by
    simp only [run, install_cons, bind_assoc]
    rw [bind_of_ok hok]
    rfl
  rw [left, heq]
  exact touches_left hafter

theorem revises_left {id : ObjectId} (h : r.edited? heap = some id) (hedits : l.edits id) :
    Revises l id heap (left (r.run roots) heap) := by
  cases r with
  | addSlot target name value =>
    obtain rfl := Option.some.inj h
    exact revises_restructure heap target (.addSlot name value)
  | insertSlot target position name value =>
    obtain rfl := Option.some.inj h
    exact revises_restructure heap target (.insertSlot position name value)
  | addParent target name value =>
    obtain rfl := Option.some.inj h
    exact revises_restructure heap target (.addParent name value)
  | eraseSlot target name =>
    obtain ⟨hslot, htarget⟩ := Option.ite_none_right_eq_some.1 h
    obtain rfl := Option.some.inj htarget
    have heq : left ((eraseSlot target name).run roots) heap = heap.restructure target (·.eraseSlot name) := by
      show (heap.eraseSlot target name).2 = _
      rw [Heap.eraseSlot, if_pos hslot]
    rw [heq]
    exact revises_restructure heap target (.eraseSlot name)
  | eraseParent target name =>
    obtain ⟨hparent, htarget⟩ := Option.ite_none_right_eq_some.1 h
    obtain rfl := Option.some.inj htarget
    have heq : left ((eraseParent target name).run roots) heap = heap.restructure target (·.eraseParent name) := by
      show (heap.eraseParent target name).2 = _
      rw [Heap.eraseParent, if_pos hparent]
    rw [heq]
    exact revises_restructure heap target (.eraseParent name)
  | install target natives =>
    cases natives with
    | nil => cases h
    | cons native natives =>
      simp only [edited?] at h
      split at h
      · obtain rfl := Option.some.inj h
        exact revises_left_install natives ‹_› hedits
      · cases h
  | _ => cases h

end Request

end ProtoVm
