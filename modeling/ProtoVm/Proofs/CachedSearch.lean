import ProtoVm.Proofs.Change
import ProtoVm.Proofs.Walk

/-!
# Remembered searches

The invariant behind the cache: if every checkpoint of an entry is valid, then the search that made
the entry would pass the same objects again and end in the same one. A later change either leaves the
checkpoints' objects alone or makes a checkpoint invalid for good.
-/

namespace ProtoVm

/-- Some live object of the entry's shape and edges begins a search that runs through the checkpoints
and ends at the holder. -/
def CachedSlot.Replays (heap : Heap) (roots : Roots) (shape : ShapeId) (name : String) (entry : CachedSlot) :
    Prop :=
  ∃ start value, heap.isLive start = true ∧ (heap.object start).shape.id = shape ∧
    (heap.object start).scope = entry.scope ∧ (heap.object start).parentValues = entry.parents ∧
    (heap.walk roots start (·.slot? name)).visited = entry.checkpoints.map (·.object) ∧
    (heap.walk roots start (·.slot? name)).result = .found entry.holder value

structure CachedSlot.Sound (heap : Heap) (roots : Roots) (shape : ShapeId) (name : String) (entry : CachedSlot) :
    Prop where
  issued : ∀ checkpoint ∈ entry.checkpoints, heap.Issued checkpoint.object
  version_le : ∀ checkpoint ∈ entry.checkpoints, checkpoint.version ≤ heap.version
  replays : (∀ checkpoint ∈ entry.checkpoints, checkpoint.isValid heap = true) →
    entry.Replays heap roots shape name

namespace Heap

/-- Every remembered search is sound. -/
def Remembers (roots : Roots) (heap : Heap) : Prop :=
  ∀ shape name entry, ((shape, name), entry) ∈ heap.cache → entry.Sound heap roots shape name

theorem isValid_iff {heap : Heap} {checkpoint : Checkpoint} :
    checkpoint.isValid heap = true ↔
      ∃ object, heap.get? checkpoint.object = some object ∧ object.shape.version = checkpoint.version := by
  unfold Checkpoint.isValid versionOf
  rw [Bool.and_eq_true, beq_iff_eq, isLive_iff]
  constructor
  · rintro ⟨⟨object, hget⟩, hversion⟩
    exact ⟨object, hget, object_of_get? hget ▸ hversion⟩
  · rintro ⟨object, hget, hversion⟩
    exact ⟨⟨object, hget⟩, by rw [object_of_get? hget, hversion]⟩

/-- A checkpoint that is valid later was valid before, and its object has kept its structure. -/
theorem Later.alike_of_isValid {heap heap' : Heap} (h : heap.Later heap') {checkpoint : Checkpoint}
    (hissued : heap.Issued checkpoint.object) (hversion : checkpoint.version ≤ heap.version)
    (hvalid : checkpoint.isValid heap' = true) :
    checkpoint.isValid heap = true ∧
      (heap.object checkpoint.object).Alike (heap'.object checkpoint.object) := by
  obtain ⟨object', hget', hversion'⟩ := isValid_iff.1 hvalid
  obtain ⟨object, hget, halike | hlt⟩ := h.alike _ object' hissued hget'
  · rw [object_of_get? hget, object_of_get? hget']
    refine ⟨isValid_iff.2 ⟨object, hget, ?_⟩, halike⟩
    rw [← halike.shape_eq, hversion']
  · omega

theorem agreeAt_of_alike {heap heap' : Heap} {id : ObjectId}
    (h : (heap.object id).Alike (heap'.object id)) (roots : Roots) (name : String) :
    AgreeAt heap heap' roots (·.slot? name) id := by
  refine ⟨?_, Object.isSome_slot?_congr (by rw [h.shape_eq]) h.length_eq name⟩
  unfold neighbours
  rw [h.edges_eq]

theorem CachedSlot.Sound.later {heap heap' : Heap} {roots : Roots} {shape : ShapeId} {name : String}
    {entry : CachedSlot} (hs : entry.Sound heap roots shape name) (h : heap.Later heap') :
    entry.Sound heap' roots shape name := by
  refine ⟨fun checkpoint hc => h.issued _ (hs.issued checkpoint hc),
    fun checkpoint hc => Nat.le_trans (hs.version_le checkpoint hc) h.version_le, fun hvalid => ?_⟩
  have hkept (checkpoint : Checkpoint) (hc : checkpoint ∈ entry.checkpoints) :=
    h.alike_of_isValid (hs.issued checkpoint hc) (hs.version_le checkpoint hc) (hvalid checkpoint hc)
  obtain ⟨start, value, hlive, hshape, hscope, hparents, hvisited, hresult⟩ :=
    hs.replays fun checkpoint hc => (hkept checkpoint hc).1
  have halike : ∀ id ∈ (heap.walk roots start (·.slot? name)).visited,
      heap'.isLive id = true ∧ (heap.object id).Alike (heap'.object id) := by
    intro id hid
    rw [hvisited, List.mem_map] at hid
    obtain ⟨checkpoint, hc, rfl⟩ := hid
    obtain ⟨object', hget', -⟩ := isValid_iff.1 (hvalid checkpoint hc)
    exact ⟨isLive_iff.2 ⟨object', hget'⟩, (hkept checkpoint hc).2⟩
  obtain ⟨hvisited', hend⟩ := walk_agree fun id hid => agreeAt_of_alike (halike id hid).2 roots name
  obtain ⟨rest, hhead⟩ := heap.walk_visited_head start
  obtain ⟨hlive', hstart⟩ := halike start (hhead ▸ List.mem_cons_self)
  rw [hresult] at hend
  generalize hresult' : (heap'.walk roots start (·.slot? name)).result = result' at hend
  cases hend with
  | found holder value value' =>
    exact ⟨start, value', hlive', by rw [hstart.shape_eq, hshape], by rw [hstart.scope_eq, hscope],
      by rw [hstart.parents_eq, hparents], hvisited'.trans hvisited, hresult'⟩

/-- Searches from an issued id pass only issued ids. -/
theorem Coherent.walk_issued {copies : List Object} {heap : Heap} (hc : heap.Coherent copies)
    {roots : Roots} (htraits : heap.Issued roots.fixnumTraits) {start : ObjectId}
    (hstart : heap.Issued start) (defines : Object → Option Value) :
    ∀ id ∈ (heap.walk roots start defines).visited, heap.Issued id := by
  refine walk_visited (fun id _ next hnext => ?_) hstart
  obtain ⟨value, hvalue, rfl⟩ := List.mem_map.1 hnext
  cases hget : heap.get? id with
  | none => simp [Heap.object, hget, Object.edges] at hvalue
  | some object =>
    rw [object_of_get? hget] at hvalue
    cases value with
    | fixnum n => exact htraits
    | ref target => exact hc.edges id object hget _ hvalue target rfl

theorem Coherent.versionOf_le {copies : List Object} {heap : Heap} (hc : heap.Coherent copies)
    (id : ObjectId) : heap.versionOf id ≤ heap.version := by
  unfold versionOf
  cases hget : heap.get? id with
  | none => simp [Heap.object, hget]
  | some object =>
    rw [object_of_get? hget]
    exact hc.version_le object (.of_get? hget)

theorem Coherent.trace_sound {copies : List Object} {heap : Heap} (hc : heap.Coherent copies)
    {roots : Roots} (htraits : heap.Issued roots.fixnumTraits) {start : ObjectId}
    (hstart : heap.Issued start) {name : String} {holder : ObjectId} {value : Value}
    (hresult : (heap.walk roots start (·.slot? name)).result = .found holder value) :
    (heap.trace roots start name holder).Sound heap roots (heap.object start).shape.id name := by
  refine ⟨fun checkpoint hmem => ?_, fun checkpoint hmem => ?_, fun hvalid => ?_⟩
  · obtain ⟨id, hid, rfl⟩ := List.mem_map.1 hmem
    exact hc.walk_issued htraits hstart _ id hid
  · obtain ⟨id, hid, rfl⟩ := List.mem_map.1 hmem
    exact hc.versionOf_le id
  · obtain ⟨rest, hhead⟩ := heap.walk_visited_head start
    have hlive : heap.isLive start = true := by
      have hmem : (⟨start, heap.versionOf start⟩ : Checkpoint) ∈ (heap.trace roots start name holder).checkpoints :=
        List.mem_map.2 ⟨start, hhead ▸ List.mem_cons_self, rfl⟩
      obtain ⟨object, hget, -⟩ := isValid_iff.1 (hvalid _ hmem)
      exact isLive_iff.2 ⟨object, hget⟩
    refine ⟨start, value, hlive, rfl, rfl, rfl, ?_, hresult⟩
    rw [trace, List.map_map]
    exact (List.map_id _).symm

theorem Remembers.change {roots : Roots} {copies : List Object} {heap heap' : Heap}
    (hr : heap.Remembers roots) (hc : heap.Coherent copies) (h : Change roots copies heap heap') :
    heap'.Remembers roots := by
  have hlater := h.later hc
  have hkeep (hcache : heap'.cache = heap.cache) : heap'.Remembers roots := by
    intro shape name entry hmem
    rw [hcache] at hmem
    exact CachedSlot.Sound.later (hr shape name entry hmem) hlater
  cases h with
  | allocate admits h => exact hkeep (allocate_adds hc.tidy h).cache_eq
  | release id h => exact hkeep (cache_release heap id)
  | assign id index value => exact hkeep (by unfold update; split <;> rfl)
  | restructure id edited issued =>
    exact hkeep (by unfold restructure update; simp only; split <;> rfl)
  | drawShape => exact hkeep rfl
  | record strings templates nextUnit => exact hkeep rfl
  | consult start name hstart htraits =>
    rcases heap.parentLookup_heap roots start name with h | ⟨holder, value, hresult, h⟩
    · exact hkeep (by rw [h])
    · intro shape name' entry hmem
      apply CachedSlot.Sound.later _ hlater
      rw [h] at hmem
      rcases List.mem_cons.1 hmem with heq | hmem
      · cases heq
        exact hc.trace_sound htraits hstart hresult
      · exact hr shape name' entry (List.mem_filter.1 hmem).1

theorem Remembers.evolves {roots : Roots} {copies : List Object} {heap heap' : Heap}
    (hr : heap.Remembers roots) (hc : heap.Coherent copies) (h : Evolves roots copies heap heap') :
    heap'.Remembers roots := by
  induction h with
  | refl => exact hr
  | tail hrest hstep ih => exact ih.change (hc.evolves hrest) hstep

theorem mem_cache_of_cached? {heap : Heap} {shape : ShapeId} {name : String} {entry : CachedSlot}
    (h : heap.cached? shape name = some entry) : ((shape, name), entry) ∈ heap.cache := by
  unfold cached? at h
  obtain ⟨before, after, hcache, -⟩ := List.lookup_eq_some_iff.1 h
  rw [hcache]
  simp

/-- A live object that does not have the name shares its shape only with objects that do not. -/
theorem Coherent.slot?_eq_none {copies : List Object} {heap : Heap} (hc : heap.Coherent copies)
    {id other : ObjectId} {name : String} (hid : heap.isLive id = true)
    (hother : heap.isLive other = true)
    (hshape : (heap.object other).shape.id = (heap.object id).shape.id)
    (h : (heap.object id).slot? name = none) : (heap.object other).slot? name = none := by
  obtain ⟨catalogue, -, hfits⟩ := hc.catalogued
  have hown := (hfits _ (.of_get? (get?_object hid))).own
  have hown' := (hfits _ (.of_get? (get?_object hother))).own
  rw [hshape, hown, Prod.mk.injEq] at hown'
  have hsome := Object.isSome_slot?_congr hown'.1.symm hown'.2.symm name
  rw [h] at hsome
  simpa using hsome

/-- An entry that passes for a live object without the name is where its search ends. -/
theorem recalled?_eq_some {copies : List Object} {heap : Heap} {roots : Roots}
    (hc : heap.Coherent copies) {id : ObjectId} (hlive : heap.isLive id = true) {name : String}
    (hnone : (heap.object id).slot? name = none) {entry : CachedSlot}
    (hs : entry.Sound heap roots (heap.object id).shape.id name) {value : Value}
    (h : heap.recalled? (heap.object id) name entry = some value) :
    (heap.walk roots id (·.slot? name)).result = .found entry.holder value := by
  unfold recalled? at h
  split at h
  · rename_i hvalid
    simp only [CachedSlot.isValidFor, Bool.and_eq_true, beq_iff_eq, List.all_eq_true] at hvalid
    obtain ⟨⟨⟨hscope, hparents⟩, -⟩, hcheckpoints⟩ := hvalid
    obtain ⟨start, value', hstart, hshape, hscope', hparents', -, hresult⟩ := hs.replays hcheckpoints
    have hnone' := hc.slot?_eq_none hlive hstart hshape hnone
    have hedges : heap.neighbours roots start = heap.neighbours roots id := by
      unfold neighbours Object.edges
      rw [hscope', hparents', hscope, hparents]
    rw [walk_result_eq_of_neighbours_eq hnone' hnone hedges] at hresult
    have hvalue := (walk_found hresult).2
    rw [h] at hvalue
    rw [hresult, ← Option.some.inj hvalue]
  · cases h

theorem nearSlot?_eq_none {heap : Heap} {roots : Roots} {id : ObjectId} {name : String}
    (h : heap.nearSlot? roots id name = none) : (heap.object id).slot? name = none := by
  unfold nearSlot? at h
  split at h
  · cases h
  · assumption

/-- Looking a name up with the help of earlier searches gives what a plain search gives. -/
theorem slotLookup_result {copies : List Object} {heap : Heap} {roots : Roots}
    (hc : heap.Coherent copies) (hr : heap.Remembers roots) {id : ObjectId}
    (hlive : heap.isLive id = true) (name : String) :
    (heap.slotLookup roots id name).result = heap.plainLookup roots id name := by
  unfold slotLookup plainLookup
  cases hnear : heap.nearSlot? roots id name with
  | some near => rfl
  | none =>
    simp only
    unfold parentLookup
    simp only
    split
    · rename_i holder value hentry
      obtain ⟨entry, hcached, hrecalled⟩ := Option.bind_eq_some_iff.1 hentry
      obtain ⟨found, hfound, heq⟩ := Option.map_eq_some_iff.1 hrecalled
      cases heq
      have hs := hr _ name entry (mem_cache_of_cached? hcached)
      exact (recalled?_eq_some hc hlive (nearSlot?_eq_none hnear) hs hfound).symm
    · split <;> rfl

/-- A lookup that succeeds answers with a slot of the holder. -/
theorem slot?_of_slotLookup {heap : Heap} {roots : Roots} {id holder : ObjectId} {name : String}
    {value : Value} (h : (heap.slotLookup roots id name).result = .found holder value) :
    (heap.object holder).slot? name = some value := by
  unfold slotLookup at h
  split at h
  · rename_i near found hnear
    cases h
    unfold nearSlot? at hnear
    split at hnear
    · cases hnear
      assumption
    · obtain ⟨scope, -, hscope⟩ := Option.bind_eq_some_iff.1 hnear
      obtain ⟨slot, hslot, heq⟩ := Option.bind_eq_some_iff.1 hscope
      cases heq
      exact hslot
  · unfold parentLookup at h
    simp only at h
    split at h
    · rename_i hentry
      cases h
      obtain ⟨entry, -, hrecalled⟩ := Option.bind_eq_some_iff.1 hentry
      obtain ⟨found, hfound, heq⟩ := Option.map_eq_some_iff.1 hrecalled
      cases heq
      unfold recalled? at hfound
      split at hfound
      · exact hfound
      · cases hfound
    · split at h
      · exact (walk_found h).2
      · exact (walk_found h).2

end Heap

end ProtoVm
