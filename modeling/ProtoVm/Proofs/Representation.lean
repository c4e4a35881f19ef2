import Mathlib.Data.List.Nodup
import ProtoVm.Proofs.Upkeep

/-!
# Objects as ordered records

What an object stores is a list of names with values, in the order in which they are shown. The layout scatters the
values over the storage and shares the order with other objects, but each edit does to the object what it does to
such a list, and nothing to any other object.
-/

namespace ProtoVm

/-! ## Lists of names with values -/

abbrev Entries := List (String × Value)

namespace Entries

def has (name : String) (entries : Entries) : Bool := entries.any (·.1 == name)

/-- The value of a name is replaced where it stands. -/
def assign (name : String) (value : Value) (entries : Entries) : Entries :=
  entries.map fun entry => if entry.1 = name then (name, value) else entry

/-- A new name stands at `position`, or at the nearer end. -/
def putAt (position : Int) (name : String) (value : Value) (entries : Entries) : Entries :=
  if entries.has name then entries.assign name value
  else entries.insertIdx (max 0 (min position entries.length)).toNat (name, value)

/-- A new name stands last. -/
def put (name : String) (value : Value) (entries : Entries) : Entries :=
  if entries.has name then entries.assign name value else entries ++ [(name, value)]

def without (name : String) (entries : Entries) : Entries := entries.filter (·.1 != name)

theorem without_of_not_has {name : String} {entries : Entries} (h : entries.has name = false) :
    entries.without name = entries := by
  simpa [without, has] using h

theorem assign_of_not_has {name : String} {value : Value} {entries : Entries} (h : entries.has name = false) :
    entries.assign name value = entries := by
  refine (List.map_congr_left fun entry hentry => if_neg ?_).trans (List.map_id entries)
  simp only [has, List.any_eq_false, beq_iff_eq] at h
  exact h entry hentry

theorem putAt_length (name : String) (value : Value) (entries : Entries) :
    entries.putAt entries.length name value = entries.put name value := by
  unfold putAt put
  split
  · rfl
  · rw [show (max 0 (min (entries.length : Int) entries.length)).toNat = entries.length by omega,
      List.insertIdx_length_self]

end Entries

/-! ## Tables -/

namespace Layout

/-- The names of a layout with the values that `values` stores for them. -/
def read (layout : Layout) (values : List Value) : Entries :=
  layout.filterMap fun entry => values[entry.2]?.map (entry.1, ·)

/-- Every name has a place of its own in `values`, and every place has a name. -/
structure Stores (layout : Layout) (values : List Value) : Prop where
  nodup : layout.names.Nodup
  places : (layout.map (·.2)).Perm (List.range layout.length)
  length_eq : values.length = layout.length

variable {layout : Layout} {values : List Value} {name : String} {index : Nat}

theorem perm_range_iff {places : List Nat} {n : Nat} (hlength : places.length = n) :
    places.Perm (List.range n) ↔ places.Nodup ∧ ∀ place ∈ places, place < n := by
  constructor
  · intro h
    exact ⟨h.nodup_iff.2 List.nodup_range, fun place hplace => List.mem_range.1 (h.mem_iff.1 hplace)⟩
  · rintro ⟨hnodup, hlt⟩
    refine (List.subperm_of_subset hnodup fun place hplace => List.mem_range.2 (hlt place hplace)).perm_of_length_le ?_
    rw [List.length_range, hlength]

theorem mem_of_index? (h : layout.index? name = some index) : (name, index) ∈ layout := by
  obtain ⟨before, after, rfl, -⟩ := List.lookup_eq_some_iff.1 h
  exact List.mem_append_right _ List.mem_cons_self

theorem index?_eq_none_iff : layout.index? name = none ↔ name ∉ layout.names := by
  rw [index?, List.lookup_eq_none_iff, names, List.mem_map]
  constructor
  · rintro h ⟨entry, hentry, rfl⟩
    simpa using h entry hentry
  · intro h entry hentry
    exact bne_iff_ne.2 fun heq => h ⟨entry, hentry, heq.symm⟩

namespace Stores

theorem lt (h : layout.Stores values) {entry : String × Nat} (hentry : entry ∈ layout) : entry.2 < values.length := by
  rw [h.length_eq]
  exact List.mem_range.1 (h.places.mem_iff.1 (List.mem_map_of_mem hentry))

theorem place_inj (h : layout.Stores values) {entry other : String × Nat} (hentry : entry ∈ layout)
    (hother : other ∈ layout) (heq : entry.2 = other.2) : entry = other :=
  List.inj_on_of_nodup_map (h.places.nodup_iff.2 List.nodup_range) hentry hother heq

theorem name_inj (h : layout.Stores values) {entry other : String × Nat} (hentry : entry ∈ layout)
    (hother : other ∈ layout) (heq : entry.1 = other.1) : entry = other :=
  List.inj_on_of_nodup_map h.nodup hentry hother heq

end Stores

/-- Nothing is lost in reading. -/
theorem map_read (h : ∀ entry ∈ layout, entry.2 < values.length) :
    (layout.read values).map (fun entry => (entry.1, some entry.2)) =
      layout.map fun entry => (entry.1, values[entry.2]?) := by
  rw [read, List.map_filterMap, ← List.filterMap_eq_map]
  refine List.filterMap_congr fun entry hentry => ?_
  simp [List.getElem?_eq_getElem (h entry hentry)]

theorem length_read (h : ∀ entry ∈ layout, entry.2 < values.length) : (layout.read values).length = layout.length := by
  simpa using congrArg List.length (map_read h)

theorem has_read (h : ∀ entry ∈ layout, entry.2 < values.length) (name : String) :
    (layout.read values).has name = layout.contains name := by
  have hnames := congrArg (List.map (·.1)) (map_read h)
  simp only [List.map_map] at hnames
  have hread : (layout.read values).map (·.1) = layout.names := hnames
  rw [Bool.eq_iff_iff, contains, Option.isSome_iff_ne_none, Ne, index?_eq_none_iff, not_not, ← hread]
  simp [Entries.has]

theorem read_cons {entry : String × Nat} {value : Value} (h : values[entry.2]? = some value) :
    Layout.read (entry :: layout) values = (entry.1, value) :: layout.read values :=
  List.filterMap_cons_some (by rw [h, Option.map_some])

theorem read_insertIdx (h : ∀ entry ∈ layout, entry.2 < values.length) {value : Value}
    (hvalue : values[index]? = some value) (position : Nat) (name : String) :
    Layout.read (layout.insertIdx position (name, index)) values =
      (layout.read values).insertIdx position (name, value) := by
  induction layout generalizing position with
  | nil =>
    cases position with
    | zero => exact read_cons hvalue
    | succ position => rfl
  | cons entry layout ih =>
    have hentry := List.getElem?_eq_getElem (h entry List.mem_cons_self)
    cases position with
    | zero => exact read_cons hvalue
    | succ position =>
      rw [List.insertIdx_succ_cons, read_cons hentry, read_cons hentry, List.insertIdx_succ_cons,
        ih (fun other hother => h other (List.mem_cons_of_mem entry hother))]

theorem read_append (h : ∀ entry ∈ layout, entry.2 < values.length) (value : Value) :
    layout.read (values ++ [value]) = layout.read values :=
  List.filterMap_congr fun entry hentry => by rw [List.getElem?_append_left (h entry hentry)]

theorem read_filter (name : String) :
    Layout.read (layout.filter (·.1 != name)) values = (layout.read values).without name := by
  rw [read, read, Entries.without, List.filterMap_filter, List.filter_filterMap]
  refine List.filterMap_congr fun entry _ => ?_
  cases values[entry.2]? with
  | none => simp
  | some value => simp [Option.filter]

/-- The values above the gap move down with their places. -/
theorem read_closeGap {freed : Nat} (h : ∀ entry ∈ layout, entry.2 ≠ freed) :
    (layout.closeGap freed).read (values.eraseIdx freed) = layout.read values := by
  rw [read, closeGap, List.filterMap_map]
  refine List.filterMap_congr fun entry hentry => ?_
  have hne := h entry hentry
  simp only [Function.comp_apply, List.getElem?_eraseIdx]
  split
  · rw [if_neg (by omega), Nat.sub_add_cancel (by omega)]
  · rw [if_pos (by omega)]

namespace Stores

theorem has (h : layout.Stores values) (name : String) : (layout.read values).has name = layout.contains name :=
  has_read (fun _ hentry => h.lt hentry) name

theorem has_of_some (h : layout.Stores values) (hindex : layout.index? name = some index) :
    (layout.read values).has name = true := by
  rw [h.has, contains, hindex, Option.isSome_some]

theorem has_of_none (h : layout.Stores values) (hindex : layout.index? name = none) :
    (layout.read values).has name = false := by
  rw [h.has, contains, hindex, Option.isSome_none]

/-- A name that is there keeps its place. -/
theorem assign (h : layout.Stores values) (hindex : layout.index? name = some index) (value : Value) :
    layout.Stores (values.set index value) ∧
      layout.read (values.set index value) = (layout.read values).assign name value := by
  have hmem := mem_of_index? hindex
  refine ⟨⟨h.nodup, h.places, by rw [List.length_set, h.length_eq]⟩, ?_⟩
  rw [read, read, Entries.assign, List.map_filterMap]
  refine List.filterMap_congr fun entry hentry => ?_
  by_cases hname : entry.1 = name
  · obtain rfl : entry = (name, index) := h.name_inj hentry hmem hname
    rw [List.getElem?_set_self (h.lt hmem), List.getElem?_eq_getElem (h.lt hmem)]
    simp
  · have hplace : index ≠ entry.2 := by
      intro heq
      exact hname (congrArg Prod.fst (h.place_inj hentry hmem heq.symm))
    rw [List.getElem?_set_ne hplace, List.getElem?_eq_getElem (h.lt hentry)]
    simp [hname]

/-- A new name has the last place, wherever it is shown. -/
theorem insertAt (h : layout.Stores values) (hindex : layout.index? name = none) (position : Int) (value : Value) :
    (layout.insertAt position name).Stores (values ++ [value]) ∧
      (layout.insertAt position name).read (values ++ [value]) = (layout.read values).putAt position name value := by
  have hlt := fun entry (hentry : entry ∈ layout) => h.lt hentry
  have hperm : (layout.insertAt position name).Perm ((name, layout.length) :: layout) :=
    List.perm_insertIdx _ _ (Nat.min_le_right _ _)
  have hlength : (layout.insertAt position name).length = layout.length + 1 := hperm.length_eq
  refine ⟨⟨?_, ?_, ?_⟩, ?_⟩
  · exact (hperm.map _).nodup_iff.2 (List.nodup_cons.2 ⟨index?_eq_none_iff.1 hindex, h.nodup⟩)
  · rw [hlength, List.range_succ]
    exact (hperm.map _).trans ((h.places.cons _).trans (List.perm_append_singleton _ _).symm)
  · rw [hlength, List.length_append, h.length_eq, List.length_singleton]
  · have hnew : (values ++ [value])[layout.length]? = some value := by simp [← h.length_eq]
    have hplace : (max 0 (min position (layout.read values).length)).toNat = min position.toNat layout.length := by
      rw [length_read hlt]
      omega
    rw [Layout.insertAt, read_insertIdx (fun entry hentry => ?_) hnew, read_append hlt, Entries.putAt,
      h.has_of_none hindex, if_neg Bool.false_ne_true, hplace]
    rw [List.length_append]
    exact Nat.lt_add_right _ (hlt entry hentry)

theorem push (h : layout.Stores values) (hindex : layout.index? name = none) (value : Value) :
    (layout.push name).Stores (values ++ [value]) ∧
      (layout.push name).read (values ++ [value]) = (layout.read values).put name value := by
  have hpush : layout.push name = layout.insertAt layout.length name := by
    rw [Layout.insertAt, Int.toNat_natCast, Nat.min_self, List.insertIdx_length_self]
    rfl
  rw [hpush, ← Entries.putAt_length, length_read fun entry hentry => h.lt hentry]
  exact h.insertAt hindex layout.length value

theorem perm_filter (h : layout.Stores values) (hindex : layout.index? name = some index) :
    layout.Perm ((name, index) :: layout.filter (·.1 != name)) := by
  have hnames := h.nodup
  obtain ⟨before, after, rfl, hbefore⟩ := List.lookup_eq_some_iff.1 hindex
  simp only [names, List.map_append, List.map_cons] at hnames
  have hafter : ∀ entry ∈ after, (entry.1 != name) = true := by
    intro entry hentry
    have hcons := (List.nodup_append.1 hnames).2.1
    exact bne_iff_ne.2 fun heq => (List.nodup_cons.1 hcons).1 (heq ▸ List.mem_map_of_mem hentry)
  have hfilter : (before ++ (name, index) :: after).filter (·.1 != name) = before ++ after := by
    rw [List.filter_append, List.filter_cons_of_neg (by simp), List.filter_eq_self.2 hafter,
      List.filter_eq_self.2 fun entry hentry => bne_comm.trans (hbefore entry hentry)]
  rw [hfilter]
  exact List.perm_middle

/-- A name goes with its place, and no other name loses its value. -/
theorem erase (h : layout.Stores values) (hindex : layout.index? name = some index) :
    (layout.erase name).Stores (values.eraseIdx index) ∧
      (layout.erase name).read (values.eraseIdx index) = (layout.read values).without name := by
  have hmem := mem_of_index? hindex
  have hlength := (h.perm_filter hindex).length_eq
  rw [List.length_cons] at hlength
  have hrest {entry : String × Nat} (hentry : entry ∈ layout.filter (·.1 != name)) :
      entry ∈ layout ∧ entry.2 ≠ index := by
    obtain ⟨hold, hname⟩ := List.mem_filter.1 hentry
    exact ⟨hold, fun heq => bne_iff_ne.1 hname (congrArg Prod.fst (h.place_inj hold hmem heq))⟩
  have herase : layout.erase name = closeGap (layout.filter (·.1 != name)) index := by
    rw [Layout.erase, hindex]
  rw [herase]
  refine ⟨⟨?_, ?_, ?_⟩, ?_⟩
  · have hnames : (closeGap (layout.filter (·.1 != name)) index).names = names (layout.filter (·.1 != name)) := by
      simp [names, closeGap]
    rw [hnames]
    exact h.nodup.sublist (List.filter_sublist.map _)
  · have hlt := h.lt hmem
    rw [perm_range_iff (by rw [List.length_map]), closeGap, List.map_map, List.length_map]
    refine ⟨List.Nodup.map_on (fun entry hentry other hother heq => ?_) ?_, fun place hplace => ?_⟩
    · -- two places could only meet if one of them were the gap
      obtain ⟨hentry, hne⟩ := hrest hentry
      obtain ⟨hother, hne'⟩ := hrest hother
      refine h.place_inj hentry hother ?_
      simp only [Function.comp_apply] at heq
      split at heq <;> split at heq <;> omega
    · exact (List.Nodup.of_map _ h.nodup).filter _
    · obtain ⟨entry, hentry, rfl⟩ := List.mem_map.1 hplace
      obtain ⟨hentry, hne⟩ := hrest hentry
      have hbound := h.lt hentry
      rw [h.length_eq] at hbound hlt
      simp only [Function.comp_apply]
      split <;> omega
  · rw [List.length_eraseIdx_of_lt (h.lt hmem), h.length_eq, hlength, closeGap, List.length_map, Nat.add_sub_cancel]
  · rw [read_closeGap fun entry hentry => (hrest hentry).2, read_filter]

theorem of_length (h : layout.Stores values) {values' : List Value} (hlength : values'.length = layout.length) :
    layout.Stores values' := ⟨h.nodup, h.places, hlength⟩

end Stores

theorem stores_nil : Layout.Stores [] [] := ⟨List.nodup_nil, .nil, rfl⟩

theorem stores_ofNames (names : List String) : ∃ values, (ofNames names).Stores values := by
  suffices h : ∀ layout : Layout, (∃ values, layout.Stores values) → ∃ values, Layout.Stores (names.foldl
      (fun layout name => if layout.contains name then layout else layout.push name) layout) values from
    h [] ⟨[], stores_nil⟩
  induction names with
  | nil => exact fun _ h => h
  | cons name names ih =>
    rintro layout ⟨values, h⟩
    refine ih (if layout.contains name then layout else layout.push name) ?_
    split
    · exact ⟨values, h⟩
    · rename_i hcontains
      have hindex : layout.index? name = none := by simpa [contains] using hcontains
      exact ⟨_, (h.push hindex (.ref ⟨0, 0⟩)).1⟩

end Layout

/-! ## Objects -/

namespace Object

def slotEntries (object : Object) : Entries := object.shape.slots.read object.slotValues

def parentEntries (object : Object) : Entries := object.shape.parents.read object.parentValues

/-- The values of the object are stored as its shape says. -/
structure Packed (object : Object) : Prop where
  slots : object.shape.slots.Stores object.slotValues
  parents : object.shape.parents.Stores object.parentValues

/-- The lists of the object are changed by `onSlots` and `onParents`, and nothing else of it but its version. -/
structure Revised (onSlots onParents : Entries → Entries) (object object' : Object) : Prop where
  packed : object'.Packed
  slots : object'.slotEntries = onSlots object.slotEntries
  parents : object'.parentEntries = onParents object.parentEntries
  behavior : object'.shape.behavior = object.shape.behavior
  scope : object'.scope = object.scope
  payload : object'.payload = object.payload

variable {object object' : Object} {onSlots onParents : Entries → Entries}

theorem Packed.slots_eq (h : object.Packed) :
    object.slots = object.slotEntries.map fun entry => (entry.1, some entry.2) :=
  (Layout.map_read fun _ hentry => h.slots.lt hentry).symm

theorem packed_empty (id : ShapeId) (behavior : Behavior) (payload : Payload) :
    Packed { shape := { id, behavior }, payload } := ⟨Layout.stores_nil, Layout.stores_nil⟩

theorem Revised.refl (h : object.Packed) : Revised id id object object := ⟨h, rfl, rfl, rfl, rfl, rfl⟩

theorem Revised.stamp (h : Revised onSlots onParents object object') (id : ShapeId) (version : Nat) :
    Revised onSlots onParents object (object'.stamp id version) :=
  ⟨⟨h.packed.slots, h.packed.parents⟩, h.slots, h.parents, h.behavior, h.scope, h.payload⟩

theorem Packed.setSlot (h : object.Packed) {name : String} {index : Nat}
    (hindex : object.shape.slots.index? name = some index) (value : Value) :
    Revised (Entries.assign name value) id object (object.setSlot index value) := by
  obtain ⟨hstores, hread⟩ := h.slots.assign hindex value
  exact ⟨⟨hstores, h.parents⟩, hread, rfl, rfl, rfl, rfl⟩

theorem Packed.addSlot (h : object.Packed) (name : String) (value : Value) :
    Revised (Entries.put name value) id object (object.addSlot name value) := by
  unfold Object.addSlot
  split
  · rename_i index hindex
    have hset := h.setSlot hindex value
    exact { hset with slots := hset.slots.trans (if_pos (h.slots.has_of_some hindex)).symm }
  · rename_i hindex
    obtain ⟨hstores, hread⟩ := h.slots.push hindex value
    exact ⟨⟨hstores, h.parents⟩, hread, rfl, rfl, rfl, rfl⟩

theorem Packed.insertSlot (h : object.Packed) (position : Int) (name : String) (value : Value) :
    Revised (Entries.putAt position name value) id object (object.insertSlot position name value) := by
  unfold Object.insertSlot
  split
  · rename_i hcontains
    have hadd := h.addSlot name value
    have hhas : object.slotEntries.has name = true := (h.slots.has name).trans hcontains
    exact { hadd with slots := by rw [hadd.slots, Entries.put, Entries.putAt, if_pos hhas, if_pos hhas] }
  · rename_i hcontains
    have hindex : object.shape.slots.index? name = none := by simpa [Layout.contains] using hcontains
    obtain ⟨hstores, hread⟩ := h.slots.insertAt hindex position value
    exact ⟨⟨hstores, h.parents⟩, hread, rfl, rfl, rfl, rfl⟩

theorem Packed.eraseSlot (h : object.Packed) (name : String) :
    Revised (Entries.without name) id object (object.eraseSlot name) := by
  unfold Object.eraseSlot
  split
  · rename_i index hindex
    obtain ⟨hstores, hread⟩ := h.slots.erase hindex
    exact ⟨⟨hstores, h.parents⟩, hread, rfl, rfl, rfl, rfl⟩
  · rename_i hindex
    exact { Revised.refl h with slots := (Entries.without_of_not_has (h.slots.has_of_none hindex)).symm }

theorem Packed.addParent (h : object.Packed) (name : String) (value : Value) :
    Revised id (Entries.put name value) object (object.addParent name value) := by
  unfold Object.addParent
  split
  · rename_i index hindex
    obtain ⟨hstores, hread⟩ := h.parents.assign hindex value
    exact ⟨⟨h.slots, hstores⟩, rfl, hread.trans (if_pos (h.parents.has_of_some hindex)).symm, rfl, rfl, rfl⟩
  · rename_i hindex
    obtain ⟨hstores, hread⟩ := h.parents.push hindex value
    exact ⟨⟨h.slots, hstores⟩, rfl, hread, rfl, rfl, rfl⟩

theorem Packed.eraseParent (h : object.Packed) (name : String) :
    Revised id (Entries.without name) object (object.eraseParent name) := by
  unfold Object.eraseParent
  split
  · rename_i index hindex
    obtain ⟨hstores, hread⟩ := h.parents.erase hindex
    exact ⟨⟨h.slots, hstores⟩, rfl, hread, rfl, rfl, rfl⟩
  · rename_i hindex
    exact { Revised.refl h with parents := (Entries.without_of_not_has (h.parents.has_of_none hindex)).symm }

end Object

namespace Edit

/-- What an edit does to the list of slots. -/
def onSlots : Edit → Entries → Entries
  | addSlot name value => Entries.put name value
  | insertSlot position name value => Entries.putAt position name value
  | eraseSlot name => Entries.without name
  | addParent .. | eraseParent .. => id

/-- What an edit does to the list of parents. -/
def onParents : Edit → Entries → Entries
  | addParent name value => Entries.put name value
  | eraseParent name => Entries.without name
  | addSlot .. | insertSlot .. | eraseSlot .. => id

theorem revised_apply {object : Object} (edit : Edit) (h : object.Packed) :
    object.Revised edit.onSlots edit.onParents (edit.apply object) := by
  cases edit with
  | addSlot name value => exact h.addSlot name value
  | insertSlot position name value => exact h.insertSlot position name value
  | eraseSlot name => exact h.eraseSlot name
  | addParent name value => exact h.addParent name value
  | eraseParent name => exact h.eraseParent name

end Edit

/-! ## Heaps -/

namespace Heap

variable {bodies : Body → Prop} {copies : List Object} {heap heap' : Heap}

theorem All.packed_object (h : heap.All Object.Packed) (id : ObjectId) : (heap.object id).Packed :=
  h.object (Object.packed_empty 0 .data .none) id

theorem Makes.packed {object : Object} (h : heap.Makes bodies copies object) (hp : heap.All Object.Packed)
    (hcopies : ∀ copy ∈ copies, copy.Packed) : object.Packed := by
  cases h with
  | plain payload => exact Object.packed_empty 0 .data payload
  | own id h => exact Object.packed_empty id _ .none
  | binding method args nil scope =>
    obtain ⟨values, h⟩ := Layout.stores_ofNames method.params
    exact ⟨h.of_length (length_bindingValues method args nil), Layout.stores_nil⟩
  | copy id scope payload =>
    have hmodel := hp.packed_object id
    exact ⟨hmodel.slots, hmodel.parents⟩
  | held h => exact hcopies object h

theorem Deeds.packed (h : Deeds bodies copies heap heap') (tidy : heap.Tidy) (hp : heap.All Object.Packed)
    (hcopies : ∀ copy ∈ copies, copy.Packed) : heap'.All Object.Packed := by
  refine h.all tidy hp (fun heap object hp h => h.packed hp hcopies)
    (fun edit object id version h => ((edit.revised_apply h).stamp id version).packed) fun object index value h => ?_
  exact ⟨h.slots.of_length (by rw [Object.setSlot, List.length_set, h.slots.length_eq]), h.parents⟩

/-- An update replaces the object where it is in the list of all objects. -/
theorem objects_update {target : ObjectId} {object : Object} (hget : heap.get? target = some object)
    (edit : Object → Object) : ∃ before after, heap.objects = before ++ object :: after ∧
      (heap.update target edit).objects = before ++ edit object :: after := by
  have hcell := get?_eq_some_iff.1 hget
  rw [← Array.getElem?_toList] at hcell
  obtain ⟨hlt, hcell⟩ := List.getElem?_eq_some_iff.1 hcell
  have hcells : heap.cells.toList = heap.cells.toList.take target.index ++
      ⟨target.generation, some object⟩ :: heap.cells.toList.drop (target.index + 1) := by
    rw [← hcell, List.getElem_cons_drop, List.take_append_drop]
  have hlength := List.length_take_of_le (Nat.le_of_lt hlt)
  generalize heap.cells.toList.take target.index = front at hcells hlength
  generalize heap.cells.toList.drop (target.index + 1) = back at hcells
  refine ⟨front.filterMap (·.occupant), back.filterMap (·.occupant), ?_, ?_⟩
  · simp [objects, hcells]
  · simp [objects, update, hget, hcells, ← hlength]

/-! ## Heaps that can come about -/

/-- The heaps that public operations bring about, with any arguments, and the copies that their user can have. Objects
that are not in the heap can only be added to it if they are such copies. -/
inductive Arises : List Object → Heap → Prop
  | empty (limit : Nat) : Arises [] (Heap.empty limit)
  | create {limit : Nat} {roots : Roots} {heap : Heap} (h : Roots.create (Heap.empty limit) = .ok roots heap) :
      Arises [] heap
  | request {copies : List Object} {heap heap' : Heap} {roots : Roots} {r : Request} {values : List Value}
      (h : Arises copies heap) (hr : ∀ copy, r = .allocate copy → copy ∈ copies)
      (hrun : r.run roots heap = .ok values heap') : Arises copies heap'
  | refused {copies : List Object} {heap heap' : Heap} {roots : Roots} {r : Request} {fault : Fault}
      (h : Arises copies heap) (hr : ∀ copy, r = .allocate copy → copy ∈ copies)
      (hrun : r.run roots heap = .error fault heap') : Arises copies heap'
  | copy {copies : List Object} {heap : Heap} (h : Arises copies heap) (id : ObjectId) :
      Arises (heap.object id :: copies) heap
  | load {copies : List Object} {heap : Heap} (h : Arises copies heap) (code : Code) : Arises copies (heap.load code).2
  | advance {copies : List Object} {m : Machine} (h : Arises copies m.heap) (hm : m.process.Stacked) (ctx : Context) :
      Arises copies (m.advance ctx).heap

theorem Arises.packed (h : Arises copies heap) : heap.Tidy ∧ heap.All Object.Packed ∧ ∀ copy ∈ copies, copy.Packed := by
  have hdeeds {copies : List Object} {heap heap' : Heap} (h : Deeds (fun _ => True) copies heap heap')
      (hp : heap.Tidy ∧ heap.All Object.Packed ∧ ∀ copy ∈ copies, copy.Packed) :
      heap'.Tidy ∧ heap'.All Object.Packed ∧ ∀ copy ∈ copies, copy.Packed :=
    ⟨h.tidy hp.1, h.packed hp.1 hp.2.1 hp.2.2, hp.2.2⟩
  have hempty (limit : Nat) : (Heap.empty limit).Tidy ∧ (Heap.empty limit).All Object.Packed ∧
      ∀ copy ∈ ([] : List Object), copy.Packed :=
    ⟨(coherent_empty limit).tidy, all_empty limit, by simp⟩
  have hrun {copies : List Object} {r : Request} {heap : Heap} (roots : Roots)
      (hr : ∀ copy, r = .allocate copy → copy ∈ copies) :
      (Rule.acts (fun _ => True) copies).Governs (r.run roots) heap :=
    Rule.governs_request
      { method := fun _ _ => trivial
        unit := fun _ _ _ _ => trivial
        copy := hr
        assign := fun _ _ _ _ => trivial
        edit := fun _ _ => trivial
        list := fun _ _ => trivial }
  have hcreate {limit : Nat} : (Rule.acts (fun _ => True) []).Governs Roots.create (Heap.empty limit) :=
    Rule.governs_create fun _ => trivial
  induction h with
  | empty limit => exact hempty limit
  | create h => exact hdeeds (hcreate.of_ok h).deeds (hempty _)
  | request _ hr hok ih => exact hdeeds ((hrun _ hr).of_ok hok).deeds ih
  | refused _ hr herror ih => exact hdeeds ((hrun _ hr).of_error herror).2.deeds ih
  | copy _ id ih =>
    refine ⟨ih.1, ih.2.1, fun copy hcopy => ?_⟩
    rcases List.mem_cons.1 hcopy with rfl | hcopy
    · exact ih.2.1.packed_object id
    · exact ih.2.2 copy hcopy
  | @load copies heap _ code ih =>
    have hload : Acts (fun _ => True) copies heap (heap.load code).2 :=
      .single (.aside rfl rfl rfl (Nat.le_succ _))
    exact hdeeds hload.deeds ih
  | advance _ hm ctx ih =>
    have hadvance := Machine.deeds_advance ctx hm
    exact ⟨hadvance.tidy ih.1, hadvance.packed ih.1 ih.2.1 (by simp), ih.2.2⟩

/-! ## Edits -/

/-- The lists of one object are changed by `onSlots` and `onParents`, and all other objects are as before. -/
structure Amends (target : ObjectId) (onSlots onParents : Entries → Entries) (heap heap' : Heap) : Prop where
  edited : ∃ object, heap'.get? target = some object ∧ (heap.object target).Revised onSlots onParents object
  others : ∀ id, id ≠ target → heap'.get? id = heap.get? id

theorem amends_update {target : ObjectId} {edit : Object → Object} {onSlots onParents : Entries → Entries}
    (hlive : heap.isLive target = true) (h : (heap.object target).Revised onSlots onParents (edit (heap.object target))) :
    heap.Amends target onSlots onParents (heap.update target edit) := by
  refine ⟨⟨_, ?_, h⟩, fun id hid => ?_⟩
  · rw [get?_update, if_pos rfl, get?_object hlive, Option.map_some]
  · rw [get?_update, if_neg hid]

theorem amends_restructure {target : ObjectId} (hlive : heap.isLive target = true) (hp : heap.All Object.Packed) (edit : Edit) :
    heap.Amends target edit.onSlots edit.onParents (heap.restructure target edit.apply) := by
  have h : heap.Amends target edit.onSlots edit.onParents
      (heap.update target fun object => (edit.apply object).stamp heap.nextShape (heap.version + 1)) :=
    amends_update hlive ((edit.revised_apply (hp.packed_object target)).stamp _ _)
  exact ⟨h.edited, h.others⟩

theorem Amends.refl {target : ObjectId} (hlive : heap.isLive target = true) (hp : heap.All Object.Packed)
    {onSlots onParents : Entries → Entries} (hslots : onSlots (heap.object target).slotEntries = (heap.object target).slotEntries)
    (hparents : onParents (heap.object target).parentEntries = (heap.object target).parentEntries) :
    heap.Amends target onSlots onParents heap :=
  ⟨⟨_, get?_object hlive, hp.packed_object target, hslots.symm, hparents.symm, rfl, rfl, rfl⟩, fun _ _ => rfl⟩

/-- Every object stores its values as its shape says, and every edit does to its lists what it does to lists of names
with values, and nothing to other objects, whether they have the shape in common with it or not. -/
theorem Arises.refines (h : Arises copies heap) {target : ObjectId} (hlive : heap.isLive target = true) :
    (heap.object target).Packed ∧
    (heap.object target).slots = (heap.object target).slotEntries.map (fun entry => (entry.1, some entry.2)) ∧
    (∀ name value, heap.Amends target (Entries.put name value) id (heap.addSlot target name value)) ∧
    (∀ position name value,
      heap.Amends target (Entries.putAt position name value) id (heap.insertSlot target position name value)) ∧
    (∀ name, (heap.eraseSlot target name).1 = (heap.object target).slotEntries.has name ∧
      heap.Amends target (Entries.without name) id (heap.eraseSlot target name).2) ∧
    (∀ name value, heap.Amends target id (Entries.put name value) (heap.addParent target name value)) ∧
    (∀ name, (heap.eraseParent target name).1 = (heap.object target).parentEntries.has name ∧
      heap.Amends target id (Entries.without name) (heap.eraseParent target name).2) ∧
    ∀ name value, (heap.setSlot target name value).1 = (heap.object target).slotEntries.has name ∧
      heap.Amends target (Entries.assign name value) id (heap.setSlot target name value).2 ∧
      ((heap.setSlot target name value).2.object target).shape = (heap.object target).shape := by
  obtain ⟨-, hp, -⟩ := h.packed
  have hobject := hp.packed_object target
  refine ⟨hobject, hobject.slots_eq, fun name value => amends_restructure hlive hp (.addSlot name value),
    fun position name value => amends_restructure hlive hp (.insertSlot position name value), fun name => ?_,
    fun name value => amends_restructure hlive hp (.addParent name value), fun name => ?_, fun name value => ?_⟩
  · have hhas : (heap.object target).slotEntries.has name = heap.hasSlot target name := hobject.slots.has name
    unfold eraseSlot
    split
    · exact ⟨by simp_all, amends_restructure hlive hp (.eraseSlot name)⟩
    · rename_i hmissing
      rw [Bool.not_eq_true] at hmissing
      rw [hmissing] at hhas
      exact ⟨hhas.symm, .refl hlive hp (Entries.without_of_not_has hhas) rfl⟩
  · have hhas : (heap.object target).parentEntries.has name = heap.hasParent target name := hobject.parents.has name
    unfold eraseParent
    split
    · exact ⟨by simp_all, amends_restructure hlive hp (.eraseParent name)⟩
    · rename_i hmissing
      rw [Bool.not_eq_true] at hmissing
      rw [hmissing] at hhas
      exact ⟨hhas.symm, .refl hlive hp rfl (Entries.without_of_not_has hhas)⟩
  · unfold setSlot
    split
    · rename_i index hindex
      refine ⟨(hobject.slots.has_of_some hindex).symm, amends_update hlive (hobject.setSlot hindex value), ?_⟩
      rw [Heap.object, get?_update, if_pos rfl, get?_object hlive]
      rfl
    · rename_i hindex
      have hhas := hobject.slots.has_of_none hindex
      exact ⟨hhas.symm, .refl hlive hp (Entries.assign_of_not_has hhas) rfl, rfl⟩

end Heap

/-! ## Sessions -/

namespace Session

variable {plain : Prop} {w w' : Session}

theorem Reachable.arises (hw : w.Reachable plain) : Heap.Arises w.copies w.heap := by
  induction hw with
  | @start config maxObjects s h =>
    unfold Scheduler.create at h
    split at h
    · rename_i hcreate
      cases h
      exact .create hcreate
    · cases h
  | @step w w' hw h ih =>
    have hturns {s : Scheduler} (h : w.scheduler.Turns s) : Heap.Arises w.copies s.heap := by
      cases h with
      | idle h journal => exact ih
      | @turn process rest pool budget journal hpool hgoing hpool' =>
        have hprocess : process ∈ w.scheduler.pool := hpool.mem_iff.2 List.mem_cons_self
        exact (Machine.run_invariant (J := fun _ => True)
          (fun m _ hm hI _ => ⟨hI.advance hm.stacked _, fun _ => trivial⟩) (fun _ _ => trivial) budget ih trivial
          (hw.lacks hprocess)).1
    cases h with
    | request r h =>
      unfold perform
      split
      · exact ih.request h.copy ‹_›
      · exact ih.refused h.copy ‹_›
    | learn h => exact ih
    | copy h => exact ih.copy _
    | load code => exact ih.load code
    | add h => exact ih
    | remove id => exact hturns (w.scheduler.turns_removeProcess id)
    | run limit => exact hturns (w.scheduler.turns_runOnce limit)
    | tick index => exact hturns (w.scheduler.turns_tick index)
    | note event => exact ih

/-- An edit leaves the object with a shape that nothing else has. -/
theorem Reachable.isShapeShared_edited (hw : w.Reachable plain) {target : ObjectId}
    (hlive : w.heap.isLive target = true) (edit : Edit) :
    (w.heap.restructure target edit.apply).isShapeShared target = false := by
  have hc := hw.sound.heap.coherent
  have hget := Heap.get?_object hlive
  have hbelow (object : Object) (hobject : object ∈ w.heap.objects) : object.Below w.heap.nextShape := by
    obtain ⟨id, hid⟩ := Heap.mem_objects_iff.1 hobject
    exact hc.below object (.of_get? hid)
  have hunused {list : List Object} (hlist : ∀ object ∈ list, object ∈ w.heap.objects) :
      list.countP (·.shape.id == w.heap.nextShape) = 0 := by
    refine List.countP_eq_zero.2 fun object hobject heq => ?_
    exact (hbelow object (hlist object hobject)).avoids.own (beq_iff_eq.1 heq)
  have hshape : ((w.heap.restructure target edit.apply).object target).shape.id = w.heap.nextShape := by
    rw [Heap.object, Heap.get?_restructure, if_pos rfl, hget]
    rfl
  have hobjects := Heap.objects_update hget fun object =>
    (edit.apply object).stamp w.heap.nextShape (w.heap.version + 1)
  obtain ⟨before, after, hold, hnew⟩ := hobjects
  have hnew : (w.heap.restructure target edit.apply).objects = _ := hnew
  -- the new shape is in the list of all objects once, where the edited object is
  have hone := hunused fun object (hobject : object ∈ before) => hold ▸ List.mem_append_left _ hobject
  have htwo := hunused fun object (hobject : object ∈ after) => hold ▸ List.mem_append_right _ (.tail _ hobject)
  simp only [Heap.isShapeShared, hshape, hnew, Bool.or_eq_false_iff, beq_eq_false_iff_ne, decide_eq_false_iff_not,
    List.any_eq_false, Option.any_eq_true]
  refine ⟨⟨Nat.ne_of_gt hc.nextShape_pos, ?_⟩, ?_⟩
  · rw [List.countP_append, List.countP_cons, hone, htwo]
    split <;> omega
  · rintro object hobject ⟨method, hmethod, heq⟩
    have hbound : method.bindings < w.heap.nextShape := by
      rw [List.mem_append, List.mem_cons] at hobject
      rcases hobject with hobject | rfl | hobject
      · exact (hbelow object (hold ▸ List.mem_append_left _ hobject)).bindings method hmethod
      · refine (hc.below _ (.of_get? hget)).bindings method (Heap.method?_eq_some_iff.2 ?_)
        exact (edit.apply_edited _).behavior_eq.symm.trans (Heap.method?_eq_some_iff.1 hmethod)
      · exact (hbelow object (hold ▸ List.mem_append_right _ (.tail _ hobject))).bindings method hmethod
    exact Nat.ne_of_lt hbound (beq_iff_eq.1 heq)

end Session

namespace Heap

/-- A string that a program names has its shape in common with the prototype, which an edit of the string does not
reach. -/
theorem refines_trial : ∃ (w : Session) (target : ObjectId),
    w.Reachable False ∧ target ≠ w.roots.stringPrototype ∧
    (w.heap.object target).shape.id = (w.heap.object w.roots.stringPrototype).shape.id ∧
    (w.heap.eraseParent target "traits").1 = true ∧
    ((w.heap.eraseParent target "traits").2.object target).parentEntries =
      (w.heap.object target).parentEntries.without "traits" ∧
    (w.heap.eraseParent target "traits").2.get? w.roots.stringPrototype = w.heap.get? w.roots.stringPrototype := by
  have htrial : ((Session.trial .resume 24).any fun w => w.heap.strings.any fun entry =>
      w.heap.isLive entry.2 && entry.2 != w.roots.stringPrototype &&
        (w.heap.object entry.2).shape.id == (w.heap.object w.roots.stringPrototype).shape.id &&
        (w.heap.object entry.2).parentEntries.has "traits") = true := by
    decide +kernel
  obtain ⟨w, hw, hcheck⟩ := (Option.any_eq_true _ _).1 htrial
  obtain ⟨⟨text, target⟩, -, hcheck⟩ := List.any_eq_true.1 hcheck
  simp only [Bool.and_eq_true, bne_iff_ne, beq_iff_eq] at hcheck
  obtain ⟨⟨⟨hlive, hne⟩, hshape⟩, hhas⟩ := hcheck
  have hreachable : w.Reachable False := Session.reachable_of_trial hw
  obtain ⟨-, -, -, -, -, -, herase, -⟩ := Arises.refines hreachable.arises hlive
  obtain ⟨hfound, hamends⟩ := herase "traits"
  obtain ⟨object, hget, hrevised⟩ := hamends.edited
  refine ⟨w, target, hreachable, hne, hshape, hfound.trans hhas, ?_, hamends.others _ hne.symm⟩
  rw [object_of_get? hget]
  exact hrevised.parents

end Heap

end ProtoVm
