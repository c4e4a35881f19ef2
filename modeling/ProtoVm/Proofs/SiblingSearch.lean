import ProtoVm.Proofs.BlockScope
import ProtoVm.Proofs.History

/-!
# Searches that a sibling began

The ends of searches are kept with shapes, for all objects that have the shape in common. To an object without the
name this makes no difference, because its siblings search along the same edges. An object with the name is where its
own search ends, and the same holds of each of its siblings: what is remembered for their shape is the sibling that
was asked first.
-/

namespace ProtoVm

namespace Heap

/-- The object has the name, and the memory holds the search of a sibling that is as good for the object itself. -/
structure Borrows (heap : Heap) (id : ObjectId) (name : String) (sibling : ObjectId) : Prop where
  owns : (heap.object id).slot? name ≠ none
  remembered : ∃ entry, heap.cached? (heap.object id).shape.id name = some entry ∧
    entry.isValidFor heap (heap.object id) = true ∧ entry.holder = sibling
  ne : sibling ≠ id

variable {copies : List Object} {heap : Heap} {roots : Roots} {id : ObjectId} {name : String} {entry : CachedSlot}

theorem parentLookup_of_recalled {value : Value} (hcached : heap.cached? (heap.object id).shape.id name = some entry)
    (h : heap.recalled? (heap.object id) name entry = some value) :
    (heap.parentLookup roots id name).result = .found entry.holder value := by
  simp [parentLookup, hcached, h]

theorem parentLookup_of_forgotten
    (h : ∀ entry, heap.cached? (heap.object id).shape.id name = some entry →
      heap.recalled? (heap.object id) name entry = none) :
    (heap.parentLookup roots id name).result = (heap.walk roots id (·.slot? name)).result := by
  have hnone : ((heap.cached? (heap.object id).shape.id name).bind fun entry =>
      (heap.recalled? (heap.object id) name entry).map (entry.holder, ·)) = none := by
    rw [Option.bind_eq_none_iff]
    intro entry hentry
    rw [h entry hentry, Option.map_none]
  unfold parentLookup
  simp only [hnone]
  split <;> rfl

/-- An entry that passes for an object with the name was made by the search of its holder, which has the same
shape. -/
theorem holder_of_isValidFor (hc : heap.Coherent copies) (hs : entry.Sound heap roots (heap.object id).shape.id name)
    (hlive : heap.isLive id = true) (howns : (heap.object id).slot? name ≠ none)
    (hvalid : entry.isValidFor heap (heap.object id) = true) :
    heap.isLive entry.holder = true ∧ (heap.object entry.holder).shape.id = (heap.object id).shape.id ∧
      ∃ value, (heap.object entry.holder).slot? name = some value := by
  simp only [CachedSlot.isValidFor, Bool.and_eq_true, beq_iff_eq, List.all_eq_true] at hvalid
  obtain ⟨start, found, hstart, hshape, -, -, -, hresult⟩ := hs.replays hvalid.2
  cases hslot : (heap.object start).slot? name with
  | none => exact absurd (hc.slot?_eq_none hstart hlive hshape.symm hslot) howns
  | some value =>
    -- the search that is remembered ended where it began
    rw [walk_result_of_some hslot] at hresult
    injection hresult with hholder _
    rw [← hholder]
    exact ⟨hstart, hshape, value, hslot⟩

/-- A search that asks the memory first ends as it would without, unless it borrows the end of a sibling's search. -/
theorem parentLookup_eq_walk (hc : heap.Coherent copies) (hr : heap.Remembers roots) (hlive : heap.isLive id = true)
    (h : ∀ sibling, ¬heap.Borrows id name sibling) :
    (heap.parentLookup roots id name).result = (heap.walk roots id (·.slot? name)).result := by
  by_cases hforgotten : ∀ entry, heap.cached? (heap.object id).shape.id name = some entry →
      heap.recalled? (heap.object id) name entry = none
  · exact parentLookup_of_forgotten hforgotten
  push Not at hforgotten
  obtain ⟨entry, hcached, hrecalled⟩ := hforgotten
  obtain ⟨value, hvalue⟩ := Option.ne_none_iff_exists'.1 hrecalled
  rw [parentLookup_of_recalled hcached hvalue]
  cases hslot : (heap.object id).slot? name with
  | none => exact (recalled?_eq_some hc hlive hslot (hr _ name entry (mem_cache_of_cached? hcached)) hvalue).symm
  | some own =>
    unfold recalled? at hvalue
    split at hvalue
    · rename_i hvalid
      have hholder : entry.holder = id := by
        by_contra hne
        exact h entry.holder ⟨by simp [hslot], ⟨entry, hcached, hvalid, rfl⟩, hne⟩
      rw [hholder, hslot] at hvalue
      rw [walk_result_of_some hslot, hholder, Option.some.inj hvalue]
    · cases hvalue

/-- A search that borrows answers with the slot of the sibling. -/
theorem Borrows.parentLookup (hc : heap.Coherent copies) (hr : heap.Remembers roots) (hlive : heap.isLive id = true)
    {sibling : ObjectId} (h : heap.Borrows id name sibling) :
    ∃ own value, (heap.walk roots id (·.slot? name)).result = .found id own ∧
      (heap.parentLookup roots id name).result = .found sibling value ∧
      (heap.object sibling).slot? name = some value ∧ heap.isLive sibling = true ∧
      (heap.object sibling).shape.id = (heap.object id).shape.id := by
  obtain ⟨howns, ⟨entry, hcached, hvalid, rfl⟩, hne⟩ := h
  have hs := hr _ name entry (mem_cache_of_cached? hcached)
  obtain ⟨hholder, hshape, value, hvalue⟩ := holder_of_isValidFor hc hs hlive howns hvalid
  obtain ⟨own, hown⟩ := Option.ne_none_iff_exists'.1 howns
  have hrecalled : heap.recalled? (heap.object id) name entry = some value := by
    rw [recalled?, if_pos hvalid, hvalue]
  exact ⟨own, value, walk_result_of_some hown, parentLookup_of_recalled hcached hrecalled, hvalue, hholder, hshape⟩

end Heap

namespace Session

/-- Asking the memory first makes a difference exactly to an object with the name for which the search of a sibling is
remembered: the answer is then the sibling with its slot, and not the object itself. -/
theorem parentLookup_eq_walk_iff {plain : Prop} {w : Session} (hw : w.Reachable plain) {id : ObjectId}
    (hlive : w.heap.isLive id = true) (name : String) :
    ((w.heap.parentLookup w.roots id name).result = (w.heap.walk w.roots id (·.slot? name)).result ↔
      ∀ sibling, ¬w.heap.Borrows id name sibling) ∧
    ∀ sibling, w.heap.Borrows id name sibling → ∃ own value,
      (w.heap.walk w.roots id (·.slot? name)).result = .found id own ∧
      (w.heap.parentLookup w.roots id name).result = .found sibling value ∧
      (w.heap.object sibling).slot? name = some value ∧ w.heap.isLive sibling = true ∧
      (w.heap.object sibling).shape.id = (w.heap.object id).shape.id := by
  have hc := hw.sound.heap.coherent
  have hr := hw.sound.remembers
  have hborrows {sibling : ObjectId} (h : w.heap.Borrows id name sibling) := h.parentLookup hc hr hlive
  refine ⟨⟨fun heq sibling h => ?_, Heap.parentLookup_eq_walk hc hr hlive⟩, fun sibling h => hborrows h⟩
  obtain ⟨own, value, hwalk, hresult, -⟩ := hborrows h
  rw [hwalk, hresult] at heq
  injection heq with hsame
  exact h.ne hsame

/-- The user makes an object with a slot `x`, gives a copy of it another value there, and asks the object first. -/
def twinSlots : List Action :=
  let one : Value := .fixnum ⟨1, by decide⟩
  let two : Value := .fixnum ⟨2, by decide⟩
  [.learn one, .learn two, .request .newObject, .request (.addSlot ⟨48, 0⟩ "x" one), .request (.clone ⟨48, 0⟩),
    .request (.setSlot ⟨49, 0⟩ "x" two), .request (.parentLookup ⟨48, 0⟩ "x")]

/-- The object that was asked first has the memory to itself. -/
theorem parentLookup_eq_walk_enacted :
    ∃ w : Session, w.Reachable True ∧ w.heap.isLive ⟨48, 0⟩ = true ∧ w.heap.isShapeShared ⟨48, 0⟩ = true ∧
      w.heap.cached? (w.heap.object ⟨48, 0⟩).shape.id "x" ≠ none ∧
      (w.heap.parentLookup w.roots ⟨48, 0⟩ "x").result = (w.heap.walk w.roots ⟨48, 0⟩ (·.slot? "x")).result := by
  have henacted : ((enact {} twinSlots).any fun w => w.heap.isLive ⟨48, 0⟩ && w.heap.isShapeShared ⟨48, 0⟩ &&
      (w.heap.cached? (w.heap.object ⟨48, 0⟩).shape.id "x").any (·.holder == ⟨48, 0⟩)) = true := by
    decide +kernel
  obtain ⟨w, hw, hcheck⟩ := (Option.any_eq_true _ _).1 henacted
  simp only [Bool.and_eq_true, Option.any_eq_true, beq_iff_eq] at hcheck
  obtain ⟨⟨hlive, hshared⟩, entry, hcached, hholder⟩ := hcheck
  have hreachable : w.Reachable True := reachable_of_enact hw
  refine ⟨w, hreachable, hlive, hshared, by simp [hcached], ?_⟩
  refine (parentLookup_eq_walk_iff hreachable hlive "x").1.2 fun sibling h => ?_
  obtain ⟨-, ⟨other, hother, -, rfl⟩, hne⟩ := h
  rw [hcached] at hother
  cases hother
  exact hne hholder

/-- Its copy, asked next, gets the value of the object. -/
theorem parentLookup_ne_walk_enacted :
    ∃ w : Session, w.Reachable True ∧ w.heap.isLive ⟨49, 0⟩ = true ∧
      (w.heap.parentLookup w.roots ⟨49, 0⟩ "x").result = .found ⟨48, 0⟩ (.fixnum ⟨1, by decide⟩) ∧
      (w.heap.walk w.roots ⟨49, 0⟩ (·.slot? "x")).result = .found ⟨49, 0⟩ (.fixnum ⟨2, by decide⟩) := by
  have henacted : ((enact {} twinSlots).any fun w => decide (w.heap.isLive ⟨49, 0⟩ = true ∧
      (w.heap.parentLookup w.roots ⟨49, 0⟩ "x").result = .found ⟨48, 0⟩ (.fixnum ⟨1, by decide⟩) ∧
      (w.heap.walk w.roots ⟨49, 0⟩ (·.slot? "x")).result = .found ⟨49, 0⟩ (.fixnum ⟨2, by decide⟩))) = true := by
    decide +kernel
  obtain ⟨w, hw, hcheck⟩ := (Option.any_eq_true _ _).1 henacted
  exact ⟨w, reachable_of_enact hw, of_decide_eq_true hcheck⟩

end Session

end ProtoVm
