import Mathlib.Data.List.Nodup
import ProtoVm.Heap.Make
import ProtoVm.Proofs.Arena
import ProtoVm.Value.Word

/-!
# The ledger of a heap

Beside a heap stands the list of the ids that it handed out and of those that were given back, in the order in which
this happened. The list alone says which ids are live, which cells are free and, as long as no cell has had all its
generations, how many objects there are.
-/

namespace ProtoVm

/-- The ways to make an object. -/
inductive Making
  | allocate (object : Object)
  | newObject
  | newObjectWith (behavior : Behavior)
  | newWithPayload (payload : Payload)
  | newMethod (body : Body) (params : List String) (isBlock : Bool)
  | newBinding (method : Method) (args : List Value) (nil scope : Value)
  | clone (id : ObjectId)
  | cloneWithPayload (id : ObjectId) (payload : Payload)
  | instantiate (template : ObjectId) (scope : Value)
  | newActivation (method : ObjectId) (scope receiver : Value)

def Making.run : Making → HeapM ObjectId
  | allocate object => Heap.allocate object
  | newObject => Heap.newObject
  | newObjectWith behavior => Heap.newObjectWith behavior
  | newWithPayload payload => Heap.newWithPayload payload
  | newMethod body params isBlock => Heap.newMethod body params isBlock
  | newBinding method args nil scope => Heap.newBinding method args nil scope
  | clone id => Heap.clone id
  | cloneWithPayload id payload => Heap.cloneWithPayload id payload
  | instantiate template scope => Heap.instantiate template scope
  | newActivation method scope receiver => Heap.newActivation method scope receiver

/-- A request to a heap; any id can be given back, also one that is not live. -/
inductive Dealing
  | make (making : Making)
  | release (id : ObjectId)

inductive Ledger.Entry
  | made (id : ObjectId)
  | released (id : ObjectId)
deriving DecidableEq

/-- A heap and what has been done to it, the last thing first. -/
structure Ledger where
  heap : Heap
  entries : List Ledger.Entry := []

namespace Ledger

def after (l : Ledger) : Dealing → Ledger
  | .make making =>
    match making.run l.heap with
    | .ok id heap => ⟨heap, .made id :: l.entries⟩
    | .error _ heap => { l with heap }
  | .release id => ⟨l.heap.release id, .released id :: l.entries⟩

/-- The ledger of a new heap after these dealings. -/
def run (limit : Nat) (dealings : List Dealing) : Ledger := dealings.foldl after { heap := Heap.empty limit }

end Ledger

namespace Ledger.Entry

def made? : Entry → Option ObjectId
  | made id => some id
  | released _ => none

/-- The ids that were handed out, the last one first. -/
def handedOut (entries : List Entry) : List ObjectId := entries.filterMap made?

/-- The ids that were handed out and not given back since. -/
def outstanding : List Entry → List ObjectId
  | [] => []
  | made id :: entries => id :: outstanding entries
  | released id :: entries => (outstanding entries).filter (· != id)

/-- The ids given back that were the last ones of their cells. -/
def spent : List Entry → List ObjectId
  | [] => []
  | made _ :: entries => spent entries
  | released id :: entries =>
    if id ∈ outstanding entries ∧ id.generation = ObjectId.maxGeneration then id :: spent entries else spent entries

theorem mem_handedOut {entries : List Entry} {id : ObjectId} : id ∈ handedOut entries ↔ made id ∈ entries := by
  unfold handedOut
  rw [List.mem_filterMap]
  constructor
  · rintro ⟨entry, hmem, hid⟩
    cases entry with
    | made other =>
      cases hid
      exact hmem
    | released other => cases hid
  · exact fun hmem => ⟨_, hmem, rfl⟩

theorem outstanding_sublist (entries : List Entry) : (outstanding entries).Sublist (handedOut entries) := by
  induction entries with
  | nil => exact .slnil
  | cons entry entries ih =>
    cases entry with
    | made id => exact ih.cons_cons id
    | released id => exact List.filter_sublist.trans ih

end Ledger.Entry

namespace Heap

/-! ## One dealing -/

/-- The number of ids under which a cell has been handed out. -/
def dealt (heap : Heap) (index : Nat) : Nat :=
  match heap.cells[index]? with
  | some ⟨generation, some _⟩ => generation + 1
  | some ⟨generation, none⟩ => generation
  | none => 0

/-- `heap'` is `heap` with `object` in a cell that was free or, where none was free, in a new one. -/
structure Deals (heap : Heap) (object : Object) (id : ObjectId) (heap' : Heap) : Prop where
  cells_eq : ∀ index, heap'.cells[index]? =
    if index = id.index then some ⟨id.generation, some object⟩ else heap.cells[index]?
  limit_eq : heap'.limit = heap.limit
  vacant :
    heap.free = id.index :: heap'.free ∧ heap.cells[id.index]? = some ⟨id.generation, none⟩ ∧
        heap'.cells.size = heap.cells.size ∨
      heap.free = [] ∧ heap'.free = [] ∧ heap.cells[id.index]? = none ∧ id.generation = 0 ∧
        heap'.cells.size = heap.cells.size + 1

variable {heap heap' : Heap} {object : Object} {id : ObjectId}

theorem isLive_iff_cell : heap.isLive id = true ↔ ∃ object, heap.cells[id.index]? = some ⟨id.generation, some object⟩ := by
  simp only [isLive_iff, get?_eq_some_iff]

theorem allocate_deals (tidy : heap.Tidy) (h : allocate object heap = .ok id heap') : heap.Deals object id heap' := by
  unfold allocate at h
  split at h
  · rename_i index free hfree
    obtain ⟨generation, hcell⟩ := tidy.free_empty index (by simp [hfree])
    have hlt : index < heap.cells.size := (Array.getElem?_eq_some_iff.1 hcell).1
    simp only [hcell, Option.map_some, Option.getD_some, EStateM.Result.ok.injEq] at h
    obtain ⟨rfl, rfl⟩ := h
    refine ⟨fun other => ?_, rfl, .inl ⟨hfree, hcell, by simp⟩⟩
    by_cases hother : other = index
    · simp [hother, hlt]
    · simp [hother, Ne.symm hother]
  · split at h
    · cases h
      refine ⟨fun other => ?_, rfl, .inr ⟨‹_›, ‹_›, by simp, rfl, by simp⟩⟩
      rw [Array.getElem?_push]
    · cases h

theorem Deals.dealt_self (h : heap.Deals object id heap') : heap.dealt id.index = id.generation := by
  rcases h.vacant with ⟨-, hcell, -⟩ | ⟨-, -, hcell, hgen, -⟩
  · simp [dealt, hcell]
  · simp [dealt, hcell, hgen]

theorem Deals.dealt_eq (h : heap.Deals object id heap') (index : Nat) :
    heap'.dealt index = if index = id.index then id.generation + 1 else heap.dealt index := by
  unfold dealt
  rw [h.cells_eq index]
  by_cases hindex : index = id.index
  · simp [hindex]
  · simp [hindex]

theorem Deals.mem_free (h : heap.Deals object id heap') (tidy : heap.Tidy) {index : Nat} :
    index ∈ heap'.free ↔ index ≠ id.index ∧ index ∈ heap.free := by
  rcases h.vacant with ⟨hfree, -, -⟩ | ⟨hfree, hfree', -⟩
  · have hnodup := tidy.free_nodup
    rw [hfree, List.nodup_cons] at hnodup
    rw [hfree, List.mem_cons]
    constructor
    · intro hmem
      exact ⟨fun heq => hnodup.1 (heq ▸ hmem), .inr hmem⟩
    · rintro ⟨hne, heq | hmem⟩
      · exact absurd heq hne
      · exact hmem
  · simp [hfree, hfree']

theorem Deals.isLive_iff (h : heap.Deals object id heap') {other : ObjectId} :
    heap'.isLive other = true ↔ other = id ∨ heap.isLive other = true := by
  rw [isLive_iff_cell, isLive_iff_cell, h.cells_eq]
  obtain ⟨index, generation⟩ := other
  obtain ⟨index', generation'⟩ := id
  by_cases hindex : index = index'
  · subst hindex
    -- the cell was vacant
    have hvacant : ∀ held, heap.cells[index]? ≠ some ⟨generation, some held⟩ := by
      rcases h.vacant with ⟨-, hcell, -⟩ | ⟨-, -, hcell, -, -⟩
      · simp [hcell]
      · simp [hcell]
    simp [hvacant, eq_comm]
  · simp [hindex]

theorem release_of_isLive (h : heap.isLive id = true) : heap.release id =
    { heap with
      cells := heap.cells.setIfInBounds id.index ⟨id.generation + 1, none⟩
      free := if id.generation < ObjectId.maxGeneration then id.index :: heap.free else heap.free } := if_pos h

theorem release_of_not_isLive (h : heap.isLive id = false) : heap.release id = heap := by
  simp [release, h]

theorem cells_release (h : heap.isLive id = true) (index : Nat) :
    (heap.release id).cells[index]? =
      if index = id.index then some ⟨id.generation + 1, none⟩ else heap.cells[index]? := by
  obtain ⟨object, hcell⟩ := isLive_iff_cell.1 h
  have hlt : id.index < heap.cells.size := (Array.getElem?_eq_some_iff.1 hcell).1
  rw [release_of_isLive h]
  by_cases hindex : index = id.index
  · simp [hindex, hlt]
  · simp [hindex, Ne.symm hindex]

theorem mem_free_release (h : heap.isLive id = true) {index : Nat} :
    index ∈ (heap.release id).free ↔
      index = id.index ∧ id.generation < ObjectId.maxGeneration ∨ index ∈ heap.free := by
  rw [release_of_isLive h]
  by_cases hlt : id.generation < ObjectId.maxGeneration
  · simp [hlt]
  · simp [hlt]

theorem dealt_release (heap : Heap) (id : ObjectId) (index : Nat) : (heap.release id).dealt index = heap.dealt index := by
  by_cases hlive : heap.isLive id = true
  · obtain ⟨object, hcell⟩ := isLive_iff_cell.1 hlive
    unfold dealt
    rw [cells_release hlive index]
    by_cases hindex : index = id.index
    · simp [hindex, hcell]
    · simp [hindex]
  · rw [release_of_not_isLive (Bool.eq_false_iff.2 hlive)]

theorem size_release (heap : Heap) (id : ObjectId) : (heap.release id).cells.size = heap.cells.size := by
  unfold release
  split <;> simp

end Heap

/-- To make an object is to draw shapes for it and then to allocate it. -/
theorem Making.run_eq (making : Making) (heap : Heap) :
    ∃ object nextShape, making.run heap = Heap.allocate object { heap with nextShape } := by
  cases making with
  | allocate object => exact ⟨object, heap.nextShape, rfl⟩
  | newObject => exact ⟨{}, heap.nextShape, rfl⟩
  | newObjectWith behavior => exact ⟨_, heap.nextShape + 1, rfl⟩
  | newWithPayload payload => exact ⟨_, heap.nextShape, rfl⟩
  | newMethod body params isBlock => exact ⟨_, heap.nextShape + 1 + 1, rfl⟩
  | newBinding method args nil scope => exact ⟨_, heap.nextShape, rfl⟩
  | clone id => exact ⟨heap.object id, heap.nextShape, rfl⟩
  | cloneWithPayload id payload => exact ⟨_, heap.nextShape, rfl⟩
  | instantiate template scope => exact ⟨_, heap.nextShape, rfl⟩
  | newActivation method scope receiver => exact ⟨_, heap.nextShape, rfl⟩

theorem Heap.Tidy.draw {heap : Heap} (tidy : heap.Tidy) (nextShape : ShapeId) : { heap with nextShape }.Tidy :=
  ⟨tidy.free_nodup, tidy.free_empty, tidy.size_le⟩

theorem Making.deals {making : Making} {heap heap' : Heap} {id : ObjectId} (tidy : heap.Tidy)
    (h : making.run heap = .ok id heap') : heap'.Tidy ∧ ∃ object, heap.Deals object id heap' := by
  obtain ⟨object, nextShape, heq⟩ := making.run_eq heap
  rw [heq] at h
  obtain ⟨hcells, hlimit, hvacant⟩ := Heap.allocate_deals (tidy.draw nextShape) h
  exact ⟨(Heap.allocate_adds (tidy.draw nextShape) h).tidy, object, hcells, hlimit, hvacant⟩

theorem Making.error {making : Making} {heap heap' : Heap} {fault : Fault} (h : making.run heap = .error fault heap') :
    fault = .heapExhausted heap.limit ∧ heap' = { heap with nextShape := heap'.nextShape } ∧ heap.free = [] ∧
      heap.limit ≤ heap.cells.size := by
  obtain ⟨object, nextShape, heq⟩ := making.run_eq heap
  rw [heq] at h
  obtain ⟨rfl, hfault⟩ := Heap.allocate_error h
  refine ⟨hfault, rfl, ?_⟩
  unfold Heap.allocate at h
  split at h
  · cases h
  · split at h
    · cases h
    · exact ⟨‹_›, Nat.le_of_not_lt ‹_›⟩

/-- Ids within the bounds of the heap are packed into different words. -/
theorem ObjectId.word_injOn {a b : ObjectId} (ha : a.index ≤ Heap.maxObjects) (hb : b.index ≤ Heap.maxObjects)
    (ha' : a.generation ≤ maxGeneration) (hb' : b.generation ≤ maxGeneration)
    (h : a.word = b.word) : a = b := by
  obtain ⟨i, g⟩ := a
  obtain ⟨j, k⟩ := b
  have hnat := congrArg UInt64.toNat h
  simp only [word, UInt64.toNat_ofNat', Heap.maxObjects, maxGeneration] at *
  rw [Nat.mod_eq_of_lt (by omega), Nat.mod_eq_of_lt (by omega)] at hnat
  have hindex : i = j := by omega
  have hgen : g = k := by omega
  rw [hindex, hgen]

/-! ## All dealings -/

namespace Ledger

open ProtoVm.Ledger.Entry

/-- The entries and the cells tell the same story. -/
structure Balanced (l : Ledger) : Prop where
  tidy : l.heap.Tidy
  handedOut_at : ∀ index,
    (handedOut l.entries).filter (·.index = index) = ((List.range (l.heap.dealt index)).map (⟨index, ·⟩)).reverse
  live_iff : ∀ id, l.heap.isLive id = true ↔ id ∈ outstanding l.entries
  free_iff : ∀ index, index ∈ l.heap.free ↔
    ∃ generation < ObjectId.maxGeneration, l.heap.cells[index]? = some ⟨generation + 1, none⟩
  dealt_le : ∀ index, l.heap.dealt index ≤ ObjectId.maxGeneration + 1
  cells_size : l.heap.cells.size = l.heap.free.length + (outstanding l.entries).length + (spent l.entries).length

variable {l : Ledger}

theorem Balanced.mem_handedOut (h : l.Balanced) {id : ObjectId} :
    id ∈ handedOut l.entries ↔ id.generation < l.heap.dealt id.index := by
  have hiff : id ∈ handedOut l.entries ↔ id ∈ (handedOut l.entries).filter (·.index = id.index) := by simp
  rw [hiff, h.handedOut_at]
  simp only [List.mem_reverse, List.mem_map, List.mem_range]
  constructor
  · rintro ⟨generation, hlt, heq⟩
    rwa [← heq]
  · exact fun hlt => ⟨_, hlt, rfl⟩

theorem Balanced.generation_le (h : l.Balanced) {id : ObjectId} (hid : id ∈ handedOut l.entries) :
    id.generation ≤ ObjectId.maxGeneration := by
  have hlt := h.mem_handedOut.1 hid
  have hle := h.dealt_le id.index
  omega

theorem Balanced.index_lt (h : l.Balanced) {id : ObjectId} (hid : id ∈ handedOut l.entries) :
    id.index < l.heap.limit := by
  have hlt := h.mem_handedOut.1 hid
  have hbound : id.index < l.heap.cells.size := by
    by_contra hnot
    rw [Heap.dealt, Array.getElem?_eq_none (Nat.le_of_not_lt hnot)] at hlt
    exact absurd hlt (Nat.not_lt_zero _)
  exact Nat.lt_of_lt_of_le hbound h.tidy.size_le

theorem Balanced.handedOut_nodup (h : l.Balanced) : (handedOut l.entries).Nodup := by
  rw [List.nodup_iff_count]
  intro id
  have hcell : ((handedOut l.entries).filter (·.index = id.index)).Nodup := by
    rw [h.handedOut_at, List.nodup_reverse]
    exact List.nodup_range.map fun _ _ heq => (ObjectId.mk.inj heq).2
  rw [← List.count_filter (p := fun other => decide (other.index = id.index)) (by simp)]
  exact List.nodup_iff_count.1 hcell id

theorem Balanced.outstanding_nodup (h : l.Balanced) : (outstanding l.entries).Nodup :=
  h.handedOut_nodup.sublist (outstanding_sublist _)

theorem balanced_empty (limit : Nat) : Balanced { heap := Heap.empty limit } where
  tidy := ⟨.nil, by simp [Heap.empty], by simp [Heap.empty]⟩
  handedOut_at := by simp [handedOut, Heap.dealt, Heap.empty]
  live_iff := by simp [outstanding, Heap.isLive, Heap.get?, Heap.empty]
  free_iff := by simp [Heap.empty]
  dealt_le := by simp [Heap.dealt, Heap.empty]
  cells_size := by simp [outstanding, spent, Heap.empty]

theorem Balanced.made {heap : Heap} {object : Object} {id : ObjectId} (h : l.Balanced) (tidy : heap.Tidy)
    (hdeals : l.heap.Deals object id heap) : Balanced ⟨heap, .made id :: l.entries⟩ where
  tidy := tidy
  handedOut_at index := by
    have hbefore := h.handedOut_at index
    rw [hdeals.dealt_eq index]
    by_cases hindex : index = id.index
    · rw [hindex, hdeals.dealt_self] at hbefore
      simp only [handedOut] at hbefore ⊢
      simp [made?, hindex, hbefore, List.range_succ]
    · simp only [handedOut] at hbefore ⊢
      simp [made?, hindex, Ne.symm hindex, hbefore]
  live_iff other := by
    rw [outstanding, List.mem_cons, ← h.live_iff other, hdeals.isLive_iff]
  free_iff index := by
    rw [hdeals.mem_free h.tidy, h.free_iff, hdeals.cells_eq]
    by_cases hindex : index = id.index
    · simp [hindex]
    · simp [hindex]
  dealt_le index := by
    rw [hdeals.dealt_eq]
    split
    · rcases hdeals.vacant with ⟨hfree, hcell, -⟩ | ⟨-, -, -, hgen, -⟩
      · obtain ⟨generation, hlt, hcell'⟩ := (h.free_iff id.index).1 (by simp [hfree])
        rw [hcell, Option.some.injEq, Cell.mk.injEq] at hcell'
        omega
      · omega
    · exact h.dealt_le index
  cells_size := by
    have hsize := h.cells_size
    simp only [outstanding, spent, List.length_cons]
    rcases hdeals.vacant with ⟨hfree, -, hcells⟩ | ⟨hfree, hfree', -, -, hcells⟩
    · rw [hfree, List.length_cons] at hsize
      omega
    · rw [hfree, List.length_nil] at hsize
      rw [hfree', List.length_nil]
      omega

theorem Balanced.draw (h : l.Balanced) (nextShape : ShapeId) :
    Balanced { l with heap := { l.heap with nextShape } } where
  tidy := h.tidy.draw nextShape
  handedOut_at := h.handedOut_at
  live_iff := h.live_iff
  free_iff := h.free_iff
  dealt_le := h.dealt_le
  cells_size := h.cells_size

theorem Balanced.release (h : l.Balanced) (id : ObjectId) :
    Balanced ⟨l.heap.release id, .released id :: l.entries⟩ where
  tidy := h.tidy.release id
  handedOut_at index := by
    rw [Heap.dealt_release]
    exact h.handedOut_at index
  live_iff other := by
    rw [outstanding, List.mem_filter, ← h.live_iff other]
    simp only [Heap.isLive, Heap.get?_release]
    by_cases heq : other = id
    · simp [heq]
    · simp [heq]
  free_iff index := by
    by_cases hlive : l.heap.isLive id = true
    · rw [Heap.cells_release hlive, Heap.mem_free_release hlive, h.free_iff]
      by_cases hindex : index = id.index
      · obtain ⟨object, hcell⟩ := Heap.isLive_iff_cell.1 hlive
        simp [hindex, hcell]
      · simp [hindex]
    · rw [Heap.release_of_not_isLive (Bool.eq_false_iff.2 hlive)]
      exact h.free_iff index
  dealt_le index := by
    rw [Heap.dealt_release]
    exact h.dealt_le index
  cells_size := by
    have hsize := h.cells_size
    rw [Heap.size_release]
    by_cases hlive : l.heap.isLive id = true
    · have hmem := (h.live_iff id).1 hlive
      have herase : ((outstanding l.entries).filter (· != id)).length + 1 = (outstanding l.entries).length := by
        rw [← h.outstanding_nodup.erase_eq_filter, List.length_erase_of_mem hmem]
        exact Nat.succ_pred_eq_of_pos (List.length_pos_of_mem hmem)
      have hle := h.generation_le ((outstanding_sublist _).subset hmem)
      rw [Heap.release_of_isLive hlive]
      simp only [outstanding, spent, hmem, true_and]
      by_cases hlast : id.generation = ObjectId.maxGeneration
      · simp only [hlast, Nat.lt_irrefl, if_true, if_false, List.length_cons]
        omega
      · have hlt : id.generation < ObjectId.maxGeneration := Nat.lt_of_le_of_ne hle hlast
        simp only [hlast, hlt, if_true, if_false, List.length_cons]
        omega
    · have hmem : id ∉ outstanding l.entries := fun hmem => hlive ((h.live_iff id).2 hmem)
      have hsame : (outstanding l.entries).filter (· != id) = outstanding l.entries := by
        rw [← h.outstanding_nodup.erase_eq_filter, List.erase_of_not_mem hmem]
      rw [Heap.release_of_not_isLive (Bool.eq_false_iff.2 hlive)]
      simp only [outstanding, spent, hmem, false_and, if_false, hsame]
      exact hsize

theorem Balanced.after (h : l.Balanced) (dealing : Dealing) : (l.after dealing).Balanced := by
  cases dealing with
  | make making =>
    unfold Ledger.after
    dsimp only
    split
    · rename_i id heap hok
      obtain ⟨tidy, object, hdeals⟩ := Making.deals h.tidy hok
      exact h.made tidy hdeals
    · rename_i fault heap herror
      obtain ⟨-, heq, -⟩ := Making.error herror
      rw [heq]
      exact h.draw _
  | release id => exact h.release id

theorem Balanced.limit_after (h : l.Balanced) (dealing : Dealing) : (l.after dealing).heap.limit = l.heap.limit := by
  cases dealing with
  | make making =>
    unfold Ledger.after
    dsimp only
    split
    · rename_i id heap hok
      obtain ⟨-, object, hdeals⟩ := Making.deals h.tidy hok
      exact hdeals.limit_eq
    · rename_i fault heap herror
      obtain ⟨-, heq, -⟩ := Making.error herror
      rw [heq]
  | release id => exact l.heap.limit_release id

theorem Balanced.foldl (h : l.Balanced) (dealings : List Dealing) :
    (dealings.foldl Ledger.after l).Balanced ∧ (dealings.foldl Ledger.after l).heap.limit = l.heap.limit := by
  induction dealings generalizing l with
  | nil => exact ⟨h, rfl⟩
  | cons dealing dealings ih =>
    obtain ⟨hbalanced, hlimit⟩ := ih (h.after dealing)
    exact ⟨hbalanced, hlimit.trans (h.limit_after dealing)⟩

theorem balanced_run (limit : Nat) (dealings : List Dealing) : (run limit dealings).Balanced :=
  ((balanced_empty limit).foldl dealings).1

theorem limit_run (limit : Nat) (dealings : List Dealing) :
    (run limit dealings).heap.limit = min limit Heap.maxObjects :=
  ((balanced_empty limit).foldl dealings).2

/-! ## Identity -/

/-- The id of a new object is none of the ids before, also when both are packed into words. -/
theorem Balanced.fresh (h : l.Balanced) (hlimit : l.heap.limit ≤ Heap.maxObjects) {making : Making} {id old : ObjectId}
    {heap : Heap} (hok : making.run l.heap = .ok id heap) (hold : old ∈ handedOut l.entries) :
    old ≠ id ∧ (Value.ref old).word ≠ (Value.ref id).word := by
  obtain ⟨tidy, object, hdeals⟩ := Making.deals h.tidy hok
  have hne : old ≠ id := by
    rintro rfl
    have hlt := h.mem_handedOut.1 hold
    rw [hdeals.dealt_self] at hlt
    exact absurd hlt (Nat.lt_irrefl _)
  have hnext : Balanced ⟨heap, .made id :: l.entries⟩ := h.made tidy hdeals
  have hid : id ∈ handedOut (.made id :: l.entries) := Entry.mem_handedOut.2 List.mem_cons_self
  have hindex := h.index_lt hold
  have hindex' := hnext.index_lt hid
  rw [hdeals.limit_eq] at hindex'
  refine ⟨hne, fun hword => hne (ObjectId.word_injOn ?_ ?_ (h.generation_le hold) (hnext.generation_le hid) hword)⟩
  · omega
  · omega

theorem Balanced.size_eq (h : l.Balanced) :
    l.heap.size = (outstanding l.entries).length + (spent l.entries).length := by
  unfold Heap.size
  rw [h.cells_size]
  omega

theorem Balanced.size_le (h : l.Balanced) : l.heap.size ≤ l.heap.limit :=
  Nat.le_trans (Nat.sub_le _ _) h.tidy.size_le

theorem Balanced.succeeds_iff (h : l.Balanced) (making : Making) :
    (∃ id heap, making.run l.heap = .ok id heap) ↔ l.heap.size < l.heap.limit := by
  cases hrun : making.run l.heap with
  | ok id heap =>
    obtain ⟨tidy, object, hdeals⟩ := Making.deals h.tidy hrun
    have hsize := (h.made tidy hdeals).size_eq
    have hle := (h.made tidy hdeals).size_le
    have hbefore := h.size_eq
    have hlimit := hdeals.limit_eq
    simp only [outstanding, spent, List.length_cons] at hsize hle
    exact ⟨fun _ => by omega, fun _ => ⟨id, heap, rfl⟩⟩
  | error fault heap =>
    obtain ⟨-, -, hfree, hfull⟩ := Making.error hrun
    have hsize : l.heap.size = l.heap.cells.size := by simp [Heap.size, hfree]
    constructor
    · rintro ⟨id, heap, hok⟩
      cases hok
    · omega

/-- The heap counts the objects that are live and the cells that have had all their generations, and it is full when there
are as many of both as it may have cells. So the count is that of the live objects as long as no cell is spent. -/
theorem size_of_run (limit : Nat) (dealings : List Dealing) :
    let l := run limit dealings
    (outstanding l.entries).Nodup ∧ (∀ id, id ∈ outstanding l.entries ↔ l.heap.isLive id = true) ∧
      l.heap.size = (outstanding l.entries).length + (spent l.entries).length ∧
      (l.heap.size = (outstanding l.entries).length ↔ spent l.entries = []) ∧
      l.heap.size ≤ min limit Heap.maxObjects ∧
      (∀ object fault heap, Heap.allocate object l.heap = .error fault heap → heap = l.heap) ∧
      ∀ making : Making,
        ((∃ id heap, making.run l.heap = .ok id heap) ↔ l.heap.size < min limit Heap.maxObjects) ∧
        ∀ fault heap, making.run l.heap = .error fault heap →
          fault = .heapExhausted (min limit Heap.maxObjects) ∧ heap = { l.heap with nextShape := heap.nextShape } ∧
          (outstanding l.entries).length + (spent l.entries).length = min limit Heap.maxObjects := by
  intro l
  have h : l.Balanced := balanced_run limit dealings
  have hlimit : l.heap.limit = min limit Heap.maxObjects := limit_run limit dealings
  have hsize := h.size_eq
  have hle : l.heap.size ≤ min limit Heap.maxObjects := hlimit ▸ h.size_le
  refine ⟨h.outstanding_nodup, fun id => (h.live_iff id).symm, hsize, ?_, hle,
    fun object fault heap herror => (Heap.allocate_error herror).1, fun making => ⟨?_, ?_⟩⟩
  · rw [hsize, Nat.add_eq_left, List.length_eq_zero_iff]
  · rw [← hlimit, h.succeeds_iff]
  · intro fault heap herror
    obtain ⟨hfault, hheap, -⟩ := Making.error herror
    have hfull : ¬l.heap.size < l.heap.limit := by
      rw [← h.succeeds_iff making, herror]
      rintro ⟨id, heap, hok⟩
      cases hok
    exact ⟨hlimit ▸ hfault, hheap, by omega⟩

/-- Hands out the first cell of a heap and takes it back, `n` times. -/
def turnover (n : Nat) : List Dealing :=
  (List.range n).flatMap fun generation => [.make .newObject, .release ⟨0, generation⟩]

/-- A heap of one cell, which has been given back `n` times. -/
def worn (n : Nat) : Heap where
  cells := #[⟨n, none⟩]
  free := if n ≤ ObjectId.maxGeneration then [0] else []
  limit := 1

theorem turnover_succ (n : Nat) : turnover (n + 1) = turnover n ++ [.make .newObject, .release ⟨0, n⟩] := by
  simp [turnover, List.range_succ]

theorem after_turn {n : Nat} (hn : n ≤ ObjectId.maxGeneration) (entries : List Entry) :
    [.make .newObject, .release ⟨0, n⟩].foldl after ⟨worn n, entries⟩ =
      ⟨worn (n + 1), .released ⟨0, n⟩ :: .made ⟨0, n⟩ :: entries⟩ := by
  simp only [worn, hn, ↓reduceIte, List.foldl_cons, List.foldl_nil, after, Making.run, Heap.newObject, Heap.allocate,
    List.size_toArray, List.length_cons, List.length_nil, Nat.zero_add, Nat.lt_add_one, getElem?_pos,
    List.getElem_toArray, List.getElem_cons_zero, Option.map_some, Option.getD_some, Option.isSome_some,
    List.setIfInBounds_toArray, List.set_cons_zero, Heap.release, Heap.isLive, Heap.get?, Nat.add_one_le_iff]

theorem run_turnover (n : Nat) (hn : n ≤ ObjectId.maxGeneration) :
    ∃ entries, run 1 (turnover (n + 1)) = ⟨worn (n + 1), entries⟩ ∧ outstanding entries = [] := by
  induction n with
  | zero => exact ⟨[.released ⟨0, 0⟩, .made ⟨0, 0⟩], rfl, rfl⟩
  | succ n ih =>
    obtain ⟨entries, heq, hout⟩ := ih (Nat.le_of_succ_le hn)
    refine ⟨.released ⟨0, n + 1⟩ :: .made ⟨0, n + 1⟩ :: entries, ?_, by simp [outstanding, hout]⟩
    rw [turnover_succ, run, List.foldl_append, ← run, heq, after_turn hn]

/-- A cell that was handed out and given back until its generations ran out still counts as an object and keeps a heap
full in which nothing is live. -/
theorem size_of_turnover :
    let l := run 1 (turnover (ObjectId.maxGeneration + 1))
    outstanding l.entries = [] ∧ (∀ id, l.heap.isLive id = false) ∧ l.heap.size = 1 ∧
      Heap.newObject l.heap = .error (.heapExhausted 1) l.heap := by
  have h := balanced_run 1 (turnover (ObjectId.maxGeneration + 1))
  obtain ⟨entries, heq, hout⟩ := run_turnover ObjectId.maxGeneration (Nat.le_refl _)
  have hfree : (worn (ObjectId.maxGeneration + 1)).free = [] := by simp [worn]
  rw [heq] at h ⊢
  refine ⟨hout, fun id => ?_, ?_, ?_⟩
  · rw [Bool.eq_false_iff, Ne, h.live_iff, hout]
    exact List.not_mem_nil
  · rw [Heap.size, hfree]
    rfl
  · rw [Heap.newObject, Heap.allocate, hfree]
    rfl

end Ledger

end ProtoVm
