import ProtoVm.Proofs.Footprint
import ProtoVm.Proofs.Upkeep

/-!
# Runs of a heap

A run of a heap is any sequence of operations on it and of instructions of whatever processes. Every session leads its
heap through such a run, and what one operation may touch is known before it is carried out.
-/

namespace ProtoVm

/-- What can be done to a heap. -/
inductive Operation
  | request (roots : Roots) (r : Request)
  | newWithPayload (payload : Payload)
  | newBinding (method : Method) (args : List Value) (nil scope : Value)
  | newActivation (method : ObjectId) (scope receiver : Value)
  | release (id : ObjectId)
  | load (code : Code)
  /-- Keeps a copy of an object. -/
  | copy (id : ObjectId)
  /-- One instruction of a process. -/
  | step (ctx : Context) (process : Process) (journal : List Event)

/-- A heap, and the copies that somebody has taken of its objects. -/
structure Store where
  heap : Heap
  copies : List Object := []

namespace Store

open Heap

def after (s : Store) : Operation → Store
  | .request roots r => { s with heap := left (r.run roots) s.heap }
  | .newWithPayload payload => { s with heap := left (newWithPayload payload) s.heap }
  | .newBinding method args nil scope => { s with heap := left (newBinding method args nil scope) s.heap }
  | .newActivation method scope receiver => { s with heap := left (newActivation method scope receiver) s.heap }
  | .release id => { s with heap := s.heap.release id }
  | .load code => { s with heap := (s.heap.load code).2 }
  | .copy id => { s with copies := s.heap.object id :: s.copies }
  | .step ctx process journal => { s with heap := (Machine.advance ctx ⟨s.heap, process, journal⟩).heap }

/-- Everything can be asked of a heap, but an object that is put into it as it is has to be a copy. -/
def Permits (s : Store) : Operation → Prop
  | .request _ (.allocate copy) => copy ∈ s.copies
  | _ => True

inductive Next (s : Store) : Store → Prop
  | after (op : Operation) (h : s.Permits op) : Next s (s.after op)

abbrev Leads : Store → Store → Prop := Relation.ReflTransGen Next

/-- The heap was empty once. -/
def Reachable (s : Store) : Prop := ∃ limit, Leads { heap := Heap.empty limit } s

/-- The object that an operation edits. -/
def edited? (s : Store) : Operation → Option ObjectId
  | .request _ r => r.edited? s.heap
  | .step ctx process journal => Machine.edited? ctx ⟨s.heap, process, journal⟩
  | _ => none

/-! ## What an operation touches -/

/-- The mandate that an operation needs. -/
def mandate (s : Store) (op : Operation) : Mandate where
  copies := s.copies
  assigns := fun _ => True
  edits := fun id => s.edited? op = some id

variable {s s' : Store} {op : Operation}

theorem touches_after (h : s.Permits op) : Touches (s.mandate op) s.heap (s.after op).heap := by
  cases op with
  | request roots r =>
    refine r.touches_left_run ?_ (fun _ => trivial) fun _ hid => hid
    rintro copy rfl
    exact h
  | newWithPayload payload => exact touches_left (Rule.governs_newWithPayload payload)
  | newBinding method args nil scope => exact touches_left (Rule.governs_newBinding method args nil scope)
  | newActivation method scope receiver => exact touches_left (Rule.governs_newActivation method scope receiver)
  | release id => exact .single (.release id)
  | load code => exact .single (.aside rfl rfl rfl rfl (Nat.le_succ _))
  | copy id => exact .refl
  | step ctx process journal =>
    exact Machine.touches_advance (l := s.mandate (.step ctx process journal)) (fun _ _ => trivial) fun _ hid => hid

theorem revises_after {id : ObjectId} (h : s.edited? op = some id) :
    Revises (s.mandate op) id s.heap (s.after op).heap := by
  cases op with
  | request roots r => exact Request.revises_left h h
  | step ctx process journal =>
    obtain ⟨edit, heq⟩ := Machine.advance_heap_of_edited h
    rw [after, heq]
    exact revises_restructure _ id edit
  | newWithPayload | newBinding | newActivation | release | load | copy => cases h

/-! ## Sessions -/

theorem leads_run (ctx : Context) (copies : List Object) (budget : Nat) (m : Machine) :
    Leads ⟨m.heap, copies⟩ ⟨(m.run ctx budget).heap, copies⟩ := by
  induction budget generalizing m with
  | zero => exact .refl
  | succ budget ih =>
    unfold Machine.run
    split
    · exact .refl
    · have hstep : Next ⟨m.heap, copies⟩ ⟨(m.advance ctx).heap, copies⟩ :=
        .after (.step ctx m.process m.journal) trivial
      exact .head hstep (ih (m.advance ctx))

/-- The operation leads a heap through a run when it succeeds. -/
def Founds {α : Type} (x : HeapM α) : Prop :=
  ∀ heap, Ends x heap (fun _ heap' => Leads ⟨heap, []⟩ ⟨heap', []⟩) fun _ _ => True

variable {α β : Type} {x : HeapM α} {f : α → HeapM β}

theorem Founds.bind (hx : Founds x) (hf : ∀ a, Founds (f a)) : Founds (x >>= f) := by
  intro heap
  rw [ends_bind]
  refine (hx heap).mono (fun a middle hleads => ?_) fun _ _ _ => trivial
  exact (hf a middle).mono (fun _ _ h => hleads.trans h) fun _ _ _ => trivial

theorem Founds.pure (a : α) : Founds (pure a) := fun _ => .refl

theorem founds_of_after (op : Operation) (hop : ∀ heap, Permits ⟨heap, []⟩ op)
    (h : ∀ heap a heap', x heap = .ok a heap' → after ⟨heap, []⟩ op = ⟨heap', []⟩) : Founds x := by
  refine fun heap => ends_iff.2 ⟨fun a heap' hok => ?_, fun _ _ _ => trivial⟩
  rw [← h heap a heap' hok]
  exact .single (.after op (hop heap))

/-- What a request makes can be made without one. -/
theorem founds_request {x : HeapM ObjectId} (roots : Roots) (r : Request)
    (hr : ∀ heap, Permits ⟨heap, []⟩ (.request roots r)) (h : r.run roots = (do return [.ref (← x)])) : Founds x := by
  refine founds_of_after _ hr fun heap a heap' hok => ?_
  rw [after, left, h, bind_of_ok hok]
  rfl

theorem founds_create : Founds Roots.create := by
  -- no request here looks at the roots, which are only being made
  obtain ⟨roots⟩ : Nonempty Roots := ⟨Roots.all ⟨0, 0⟩⟩
  have hslot (target : ObjectId) (name : String) (value : Value) :
      Founds (modify fun heap : Heap => heap.addSlot target name value) := by
    refine founds_of_after (.request roots (.addSlot target name value)) (fun _ => trivial) ?_
    rintro heap a heap' ⟨⟩
    rfl
  have hinstall (target : ObjectId) (natives : List Native) : Founds (Roots.install target natives) := by
    refine founds_of_after (.request roots (.install target natives)) (fun _ => trivial) fun heap a heap' hok => ?_
    rw [after, left, Request.run, bind_of_ok hok]
    rfl
  have hprototype (traits : ObjectId) (payload : Payload) : Founds (Roots.newPrototype traits payload) := by
    refine Founds.bind ?_ fun prototype => Founds.bind ?_ fun _ => .pure _
    · refine founds_of_after (.newWithPayload payload) (fun _ => trivial) fun heap a heap' hok => ?_
      rw [after, left, hok]
    · refine founds_of_after (.request roots (.addParent prototype "traits" (.ref traits))) (fun _ => trivial) ?_
      rintro heap a heap' ⟨⟩
      rfl
  have hobject {γ : Type} {g : ObjectId → HeapM γ} (hg : ∀ id, Founds (g id)) : Founds (newObject >>= g) :=
    (founds_request roots .newObject (fun _ => trivial) rfl).bind hg
  unfold Roots.create
  refine hobject fun nil => hobject fun trueObject => hobject fun falseObject => ?_
  refine (founds_request roots (.newObjectWith .assignment) (fun _ => trivial) rfl).bind fun assignment => ?_
  refine hobject fun fixnumTraits => hobject fun floatTraits => hobject fun stringTraits => ?_
  refine (hprototype _ _).bind fun floatPrototype => (hprototype _ _).bind fun stringPrototype => ?_
  refine hobject fun interpreter => hobject fun primitives => (hslot _ _ _).bind fun _ => ?_
  refine (hslot _ _ _).bind fun _ => (hslot _ _ _).bind fun _ => (hslot _ _ _).bind fun _ => ?_
  refine hobject fun lobby => (hslot _ _ _).bind fun _ => (hinstall _ _).bind fun _ => ?_
  refine (hinstall _ _).bind fun _ => (hinstall _ _).bind fun _ => (hinstall _ _).bind fun _ => ?_
  exact (hinstall _ _).bind fun _ => (hinstall _ _).bind fun _ => (hinstall _ _).bind fun _ => .pure _

end Store

namespace Session

variable {plain : Prop} {w w' : Session}

/-- The heap of a session with the copies in the user's hand. -/
def store (w : Session) : Store := ⟨w.heap, w.copies⟩

theorem leads_turns {s' : Scheduler} (h : w.scheduler.Turns s') : w.store.Leads ⟨s'.heap, w.copies⟩ := by
  cases h with
  | idle hpool journal => exact .refl
  | turn budget journal hpool hgoing hpool' => exact Store.leads_run _ w.copies budget (w.scheduler.machine _)

theorem Step.leads (h : w.Step plain w') : w.store.Leads w'.store := by
  cases h with
  | request r h =>
    have hperform : (w.perform r).store = w.store.after (.request w.roots r) := by
      cases hrun : r.run w.roots w.heap <;> simp [perform, Session.store, Store.after, Heap.left, hrun]
    rw [hperform]
    refine .single (.after _ ?_)
    unfold Store.Permits
    split
    · rename_i roots copy heq
      cases heq
      exact h.copy copy rfl
    · trivial
  | learn h | add h | note event => exact .refl
  | @copy id h => exact .single (.after (.copy id) trivial)
  | load code => exact .single (.after (.load code) trivial)
  | remove id => exact leads_turns (w.scheduler.turns_removeProcess id)
  | run limit => exact leads_turns (w.scheduler.turns_runOnce limit)
  | tick index => exact leads_turns (w.scheduler.turns_tick index)

/-- Every session leads its heap through a run. -/
theorem Reachable.store (hw : w.Reachable plain) : w.store.Reachable := by
  induction hw with
  | @start config maxObjects s h =>
    unfold Scheduler.create at h
    split at h
    · rename_i roots heap hroots
      cases h
      exact ⟨maxObjects, (Store.founds_create _).of_ok hroots⟩
    · cases h
  | step hw h ih =>
    obtain ⟨limit, hleads⟩ := ih
    exact ⟨limit, hleads.trans h.leads⟩

end Session

end ProtoVm
