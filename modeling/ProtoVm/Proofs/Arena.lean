import ProtoVm.Heap.Edit

/-!
# Cells and ids

What handing out, giving back and replacing an object does to every id. An id that was ever handed
out and is no longer live stays that way, because the next id of its cell has a later generation.
-/

namespace ProtoVm.Heap

/-- The free cells are distinct and empty, and there are no more cells than there may be. -/
structure Tidy (heap : Heap) : Prop where
  free_nodup : heap.free.Nodup
  free_empty : ∀ index ∈ heap.free, ∃ generation, heap.cells[index]? = some ⟨generation, none⟩
  size_le : heap.cells.size ≤ heap.limit

/-- The id names an object or named one before. -/
def Issued (heap : Heap) (id : ObjectId) : Prop :=
  ∃ cell, heap.cells[id.index]? = some cell ∧
    (id.generation < cell.generation ∨ id.generation = cell.generation ∧ cell.occupant.isSome)

theorem get?_eq_some_iff {heap : Heap} {id : ObjectId} {object : Object} :
    heap.get? id = some object ↔ heap.cells[id.index]? = some ⟨id.generation, some object⟩ := by
  unfold get?
  constructor
  · intro h
    split at h
    · rename_i cell hcell
      split at h
      · rename_i hgen
        rw [hcell, ← hgen, ← h]
      · cases h
    · cases h
  · intro h
    simp [h]

theorem isLive_iff {heap : Heap} {id : ObjectId} :
    heap.isLive id = true ↔ ∃ object, heap.get? id = some object := by
  unfold isLive
  exact Option.isSome_iff_exists

theorem object_of_get? {heap : Heap} {id : ObjectId} {object : Object}
    (h : heap.get? id = some object) : heap.object id = object := by
  simp [Heap.object, h]

theorem get?_object {heap : Heap} {id : ObjectId} (h : heap.isLive id = true) :
    heap.get? id = some (heap.object id) := by
  obtain ⟨object, hget⟩ := isLive_iff.1 h
  rw [object_of_get? hget, hget]

theorem Issued.of_get? {heap : Heap} {id : ObjectId} {object : Object}
    (h : heap.get? id = some object) : heap.Issued id :=
  ⟨_, get?_eq_some_iff.1 h, .inr ⟨rfl, rfl⟩⟩

theorem mem_objects_iff {heap : Heap} {object : Object} :
    object ∈ heap.objects ↔ ∃ id, heap.get? id = some object := by
  unfold objects
  simp only [List.mem_filterMap, Array.mem_toList_iff]
  constructor
  · rintro ⟨cell, hcell, hoccupant⟩
    obtain ⟨index, hindex, hget⟩ := Array.mem_iff_getElem.1 hcell
    refine ⟨⟨index, cell.generation⟩, get?_eq_some_iff.2 ?_⟩
    rw [Array.getElem?_eq_getElem hindex, hget, ← hoccupant]
  · rintro ⟨id, hget⟩
    exact ⟨_, Array.mem_of_getElem? (get?_eq_some_iff.1 hget), rfl⟩

/-! ## Allocation -/

/-- `heap'` is `heap` with `object` under the new id `id`. -/
structure Adds (heap : Heap) (object : Object) (id : ObjectId) (heap' : Heap) : Prop where
  unissued : ¬heap.Issued id
  get?_self : heap'.get? id = some object
  get?_of_ne : ∀ other, other ≠ id → heap'.get? other = heap.get? other
  issued : ∀ other, heap.Issued other → heap'.Issued other
  tidy : heap'.Tidy
  limit_eq : heap'.limit = heap.limit
  version_eq : heap'.version = heap.version
  nextShape_eq : heap'.nextShape = heap.nextShape
  cache_eq : heap'.cache = heap.cache
  strings_eq : heap'.strings = heap.strings
  templates_eq : heap'.templates = heap.templates

theorem Adds.get?_eq_none {heap heap' : Heap} {object : Object} {id : ObjectId}
    (h : heap.Adds object id heap') : heap.get? id = none := by
  cases hget : heap.get? id with
  | none => rfl
  | some found => exact absurd (Issued.of_get? hget) h.unissued

theorem Adds.get?_of_some {heap heap' : Heap} {object found : Object} {id other : ObjectId}
    (h : heap.Adds object id heap') (hget : heap.get? other = some found) :
    heap'.get? other = some found := by
  have hne : other ≠ id := by
    rintro rfl
    rw [h.get?_eq_none] at hget
    cases hget
  rw [h.get?_of_ne other hne, hget]

theorem adds_of_reuse {heap : Heap} (tidy : heap.Tidy) {index : Nat} {free : List Nat}
    (hfree : heap.free = index :: free) {generation : Nat}
    (hcell : heap.cells[index]? = some ⟨generation, none⟩) (object : Object) :
    heap.Adds object ⟨index, generation⟩
      { heap with cells := heap.cells.setIfInBounds index ⟨generation, some object⟩, free } := by
  have hlt : index < heap.cells.size := (Array.getElem?_eq_some_iff.1 hcell).1
  have hnodup := tidy.free_nodup
  rw [hfree, List.nodup_cons] at hnodup
  constructor
  · rintro ⟨cell, hget, hcase⟩
    rw [hcell] at hget
    cases hget
    rcases hcase with hlt | ⟨_, hsome⟩
    · exact absurd hlt (Nat.lt_irrefl _)
    · cases hsome
  · rw [get?_eq_some_iff]
    simp [hlt]
  · rintro ⟨index', generation'⟩ hne
    unfold get?
    simp only [Array.getElem?_setIfInBounds]
    by_cases hindex : index = index'
    · subst hindex
      have hgen : generation ≠ generation' := fun h => hne (by rw [h])
      simp only [hlt, hcell, hgen, ite_true, ite_false, ite_self]
    · simp [hindex]
  · rintro ⟨index', generation'⟩ ⟨cell, hget, hcase⟩
    by_cases hindex : index = index'
    · subst hindex
      rw [hcell] at hget
      cases hget
      refine ⟨⟨generation, some object⟩, by simp [hlt], ?_⟩
      rcases hcase with h | ⟨_, h⟩
      · exact .inl h
      · cases h
    · exact ⟨cell, by simpa [Array.getElem?_setIfInBounds, hindex] using hget, hcase⟩
  · refine ⟨hnodup.2, ?_, by simpa using tidy.size_le⟩
    intro other hother
    obtain ⟨g, hg⟩ := tidy.free_empty other (by rw [hfree]; exact .tail _ hother)
    have hne : index ≠ other := fun h => hnodup.1 (h ▸ hother)
    exact ⟨g, by simpa [Array.getElem?_setIfInBounds, hne] using hg⟩
  all_goals rfl

theorem adds_of_push {heap : Heap} (tidy : heap.Tidy) (hlt : heap.cells.size < heap.limit)
    (object : Object) :
    heap.Adds object ⟨heap.cells.size, 0⟩ { heap with cells := heap.cells.push ⟨0, some object⟩ } := by
  have hbound {index : Nat} {cell : Cell} (h : heap.cells[index]? = some cell) :
      index ≠ heap.cells.size := Nat.ne_of_lt (Array.getElem?_eq_some_iff.1 h).1
  constructor
  · rintro ⟨cell, hget, _⟩
    exact hbound hget rfl
  · rw [get?_eq_some_iff]
    simp
  · rintro ⟨index, generation⟩ hne
    unfold get?
    simp only [Array.getElem?_push]
    by_cases hindex : index = heap.cells.size
    · subst hindex
      have hgen : 0 ≠ generation := fun h => hne (by rw [h])
      simp [hgen]
    · simp [hindex]
  · rintro ⟨index, generation⟩ ⟨cell, hget, hcase⟩
    exact ⟨cell, by simpa [Array.getElem?_push, hbound hget] using hget, hcase⟩
  · refine ⟨tidy.free_nodup, ?_, by simpa using Nat.succ_le_of_lt hlt⟩
    intro index hindex
    obtain ⟨g, hg⟩ := tidy.free_empty index hindex
    exact ⟨g, by simpa [Array.getElem?_push, hbound hg] using hg⟩
  all_goals rfl

theorem allocate_adds {heap heap' : Heap} (tidy : heap.Tidy) {object : Object} {id : ObjectId}
    (h : allocate object heap = .ok id heap') : heap.Adds object id heap' := by
  unfold allocate at h
  split at h
  · rename_i index free hfree
    obtain ⟨generation, hcell⟩ := tidy.free_empty index (by simp [hfree])
    simp only [hcell, Option.map_some, Option.getD_some, EStateM.Result.ok.injEq] at h
    obtain ⟨rfl, rfl⟩ := h
    exact adds_of_reuse tidy hfree hcell object
  · split at h
    · rename_i hlt
      cases h
      exact adds_of_push tidy hlt object
    · cases h

/-- An allocation that fails changes nothing. -/
theorem allocate_error {heap heap' : Heap} {object : Object} {fault : Fault}
    (h : allocate object heap = .error fault heap') :
    heap' = heap ∧ fault = .heapExhausted heap.limit := by
  unfold allocate at h
  split at h
  · cases h
  · split at h
    · cases h
    · cases h
      exact ⟨rfl, rfl⟩

/-! ## Release -/

theorem get?_release (heap : Heap) (id other : ObjectId) :
    (heap.release id).get? other = if other = id then none else heap.get? other := by
  unfold release
  split
  · rename_i hlive
    obtain ⟨object, hget⟩ := isLive_iff.1 hlive
    have hcell := get?_eq_some_iff.1 hget
    have hlt := (Array.getElem?_eq_some_iff.1 hcell).1
    obtain ⟨index, generation⟩ := id
    obtain ⟨index', generation'⟩ := other
    unfold get?
    simp only [Array.getElem?_setIfInBounds]
    by_cases hindex : index = index'
    · subst hindex
      by_cases hgen : generation' = generation
      · simp [hlt, hgen]
      · have hgen' : generation ≠ generation' := fun h => hgen h.symm
        simp only [hlt, hcell, hgen, hgen', ite_true, ite_false, ite_self, ObjectId.mk.injEq,
          and_false]
    · have hindex' : ¬index' = index := fun h => hindex h.symm
      simp [hindex, hindex']
  · rename_i hdead
    split
    · rename_i heq
      subst heq
      cases hget : heap.get? other with
      | none => rfl
      | some found => exact absurd (isLive_iff.2 ⟨found, hget⟩) hdead
    · rfl

theorem Issued.release {heap : Heap} {id : ObjectId} (h : heap.Issued id) (released : ObjectId) :
    (heap.release released).Issued id := by
  unfold Heap.release
  split
  · rename_i hlive
    obtain ⟨object, hget⟩ := isLive_iff.1 hlive
    have hcell := get?_eq_some_iff.1 hget
    have hlt := (Array.getElem?_eq_some_iff.1 hcell).1
    obtain ⟨cell, hissued, hcase⟩ := h
    by_cases hindex : released.index = id.index
    · rw [← hindex, hcell] at hissued
      cases hissued
      refine ⟨⟨released.generation + 1, none⟩, by simp [hindex ▸ hlt, hindex], .inl ?_⟩
      rcases hcase with h | ⟨h, _⟩
      · exact Nat.lt_succ_of_lt h
      · exact Nat.lt_succ_of_le (Nat.le_of_eq h)
    · exact ⟨cell, by simpa [Array.getElem?_setIfInBounds, hindex] using hissued, hcase⟩
  · exact h

theorem Tidy.release {heap : Heap} (tidy : heap.Tidy) (id : ObjectId) : (heap.release id).Tidy := by
  unfold Heap.release
  split
  · rename_i hlive
    obtain ⟨object, hget⟩ := isLive_iff.1 hlive
    have hcell := get?_eq_some_iff.1 hget
    have hlt := (Array.getElem?_eq_some_iff.1 hcell).1
    -- the cell was occupied, so it was not free
    have hnew : id.index ∉ heap.free := by
      intro hmem
      obtain ⟨g, hg⟩ := tidy.free_empty _ hmem
      rw [hcell] at hg
      cases hg
    have hother {index : Nat} (hmem : index ∈ heap.free) :
        ∃ g, (heap.cells.setIfInBounds id.index ⟨id.generation + 1, none⟩)[index]? = some ⟨g, none⟩ := by
      obtain ⟨g, hg⟩ := tidy.free_empty index hmem
      have hne : id.index ≠ index := fun h => hnew (h ▸ hmem)
      exact ⟨g, by simpa [Array.getElem?_setIfInBounds, hne] using hg⟩
    refine ⟨?_, ?_, by simpa using tidy.size_le⟩
    · split
      · exact List.nodup_cons.2 ⟨hnew, tidy.free_nodup⟩
      · exact tidy.free_nodup
    · intro index hindex
      split at hindex
      · rcases List.mem_cons.1 hindex with rfl | hmem
        · exact ⟨id.generation + 1, by simp [hlt]⟩
        · exact hother hmem
      · exact hother hindex
  · exact tidy

@[simp] theorem limit_release (heap : Heap) (id : ObjectId) :
    (heap.release id).limit = heap.limit := by
  unfold release
  split <;> rfl

@[simp] theorem version_release (heap : Heap) (id : ObjectId) :
    (heap.release id).version = heap.version := by
  unfold release
  split <;> rfl

@[simp] theorem nextShape_release (heap : Heap) (id : ObjectId) :
    (heap.release id).nextShape = heap.nextShape := by
  unfold release
  split <;> rfl

@[simp] theorem cache_release (heap : Heap) (id : ObjectId) :
    (heap.release id).cache = heap.cache := by
  unfold release
  split <;> rfl

@[simp] theorem strings_release (heap : Heap) (id : ObjectId) :
    (heap.release id).strings = heap.strings := by
  unfold release
  split <;> rfl

@[simp] theorem templates_release (heap : Heap) (id : ObjectId) :
    (heap.release id).templates = heap.templates := by
  unfold release
  split <;> rfl

/-! ## Replacement -/

theorem get?_update (heap : Heap) (id other : ObjectId) (edit : Object → Object) :
    (heap.update id edit).get? other =
      if other = id then (heap.get? id).map edit else heap.get? other := by
  unfold update
  cases hget : heap.get? id with
  | none =>
    by_cases h : other = id
    · simp [h, hget]
    · simp [h]
  | some object =>
    have hcell := get?_eq_some_iff.1 hget
    have hlt := (Array.getElem?_eq_some_iff.1 hcell).1
    obtain ⟨index, generation⟩ := id
    obtain ⟨index', generation'⟩ := other
    unfold get?
    simp only [Array.getElem?_setIfInBounds]
    by_cases hindex : index = index'
    · subst hindex
      by_cases hgen : generation' = generation
      · simp [hlt, hgen]
      · have hgen' : generation ≠ generation' := fun h => hgen h.symm
        simp only [hlt, hcell, hgen, hgen', ite_true, ite_false, ObjectId.mk.injEq, and_false]
    · have hindex' : ¬index' = index := fun h => hindex h.symm
      simp [hindex, hindex']

theorem Issued.update {heap : Heap} {id : ObjectId} (h : heap.Issued id) (target : ObjectId)
    (edit : Object → Object) : (heap.update target edit).Issued id := by
  unfold Heap.update
  split
  · rename_i object hget
    have hcell := get?_eq_some_iff.1 hget
    have hlt := (Array.getElem?_eq_some_iff.1 hcell).1
    obtain ⟨cell, hissued, hcase⟩ := h
    by_cases hindex : target.index = id.index
    · rw [← hindex, hcell] at hissued
      cases hissued
      exact ⟨⟨target.generation, some (edit object)⟩, by simp [hindex ▸ hlt, hindex], hcase⟩
    · exact ⟨cell, by simpa [Array.getElem?_setIfInBounds, hindex] using hissued, hcase⟩
  · exact h

theorem Tidy.update {heap : Heap} (tidy : heap.Tidy) (id : ObjectId) (edit : Object → Object) :
    (heap.update id edit).Tidy := by
  unfold Heap.update
  split
  · rename_i object hget
    have hcell := get?_eq_some_iff.1 hget
    refine ⟨tidy.free_nodup, ?_, by simpa using tidy.size_le⟩
    intro index hindex
    obtain ⟨g, hg⟩ := tidy.free_empty index hindex
    have hne : id.index ≠ index := by
      rintro rfl
      rw [hcell] at hg
      cases hg
    exact ⟨g, by simpa [Array.getElem?_setIfInBounds, hne] using hg⟩
  · exact tidy

end ProtoVm.Heap
