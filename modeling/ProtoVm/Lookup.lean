import ProtoVm.Heap.Cache
import ProtoVm.Roots

/-!
# Lookup

A name is looked for in an object's own slots, then in its scope, and then breadth first along scopes
and parents. The search does not go beyond an object that defines the name, and two objects that define
it make the name ambiguous. The end of a successful search is remembered, together with the versions
of the objects it passed.
-/

namespace ProtoVm

inductive Lookup
  | missing
  | found (holder : ObjectId) (value : Value)
  | ambiguous (first second : ObjectId)
deriving DecidableEq, Repr

/-- The end of a breadth-first search and the objects it passed, in order. -/
structure Walk where
  result : Lookup
  visited : List ObjectId

namespace Heap

/-- Where the search goes on from `id`. -/
def neighbours (heap : Heap) (roots : Roots) (id : ObjectId) : List ObjectId :=
  (heap.object id).edges.map roots.startOf

/-- The ends of all edges in the heap. -/
def targets (heap : Heap) (roots : Roots) : List ObjectId :=
  heap.objects.flatMap fun object => object.edges.map roots.startOf

theorem mem_targets_of_mem_neighbours {heap : Heap} {roots : Roots} {id target : ObjectId}
    (h : target ∈ heap.neighbours roots id) : target ∈ heap.targets roots := by
  unfold neighbours object at h
  unfold targets objects
  cases hget : heap.get? id with
  | none => simp [hget, Object.edges] at h
  | some found =>
    simp only [hget, Option.getD_some] at h
    simp only [List.mem_flatMap, List.mem_filterMap]
    refine ⟨found, ?_, h⟩
    unfold get? at hget
    split at hget
    · rename_i cell hcell
      split at hget
      · exact ⟨cell, by simpa using Array.mem_of_getElem? hcell, hget⟩
      · cases hget
    · cases hget

/-- Puts those of `ids` at the end of the queue that are neither in it nor passed already. -/
def enqueue (visited queue : List ObjectId) : List ObjectId → List ObjectId
  | [] => queue
  | id :: ids =>
    if id ∈ visited ∨ id ∈ queue then enqueue visited queue ids
    else enqueue visited (queue ++ [id]) ids

/-- How many of `targets` the search has yet to find. -/
def unseen (targets visited queue : List ObjectId) : Nat :=
  targets.countP fun id => id ∉ visited ∧ id ∉ queue

theorem unseen_cons_visited (targets visited queue : List ObjectId) (id : ObjectId) :
    unseen targets (id :: visited) queue = unseen targets visited (id :: queue) := by
  unfold unseen
  congr 1
  funext other
  simp only [List.mem_cons, not_or, decide_eq_decide]
  exact ⟨fun h => ⟨h.1.2, h.1.1, h.2⟩, fun h => ⟨⟨h.2.1, h.1⟩, h.2.2⟩⟩

theorem countP_lt_countP_of_mem {α : Type} {p q : α → Bool} (h : ∀ x, p x → q x) {xs : List α} {x : α}
    (hmem : x ∈ xs) (hp : p x = false) (hq : q x) : xs.countP p < xs.countP q := by
  obtain ⟨before, after, rfl⟩ := List.append_of_mem hmem
  have hbefore : before.countP p ≤ before.countP q := List.countP_mono_left fun y _ => h y
  have hafter : after.countP p ≤ after.countP q := List.countP_mono_left fun y _ => h y
  rw [List.countP_append, List.countP_append, List.countP_cons_of_neg (by simp [hp]),
    List.countP_cons_of_pos hq]
  omega

theorem unseen_append_lt {targets visited queue : List ObjectId} {id : ObjectId}
    (hmem : id ∈ targets) (hnew : ¬(id ∈ visited ∨ id ∈ queue)) :
    unseen targets visited (queue ++ [id]) < unseen targets visited queue := by
  rw [not_or] at hnew
  refine countP_lt_countP_of_mem (fun other h => ?_) hmem (by simp) (by simpa using hnew)
  simp only [List.mem_append, not_or, decide_eq_true_eq] at h ⊢
  exact ⟨h.1, h.2.1⟩

/-- What comes into the queue was unseen before. -/
theorem unseen_enqueue_add_length_le (targets visited queue ids : List ObjectId)
    (h : ∀ id ∈ ids, id ∈ targets) :
    unseen targets visited (enqueue visited queue ids) + (enqueue visited queue ids).length
      ≤ unseen targets visited queue + queue.length := by
  induction ids generalizing queue with
  | nil => exact Nat.le_refl _
  | cons id ids ih =>
    have hids : ∀ other ∈ ids, other ∈ targets := fun other hother => h other (.tail _ hother)
    unfold enqueue
    split
    · exact ih queue hids
    · rename_i hnew
      have hlt := unseen_append_lt (h id List.mem_cons_self) hnew
      have hle := ih (queue ++ [id]) hids
      rw [List.length_append, List.length_singleton] at hle
      omega

/-- One step for each object that the search passes; `visited` has the last one first. The search ends
because each step takes an object from the queue and only adds unseen ones to it. -/
def walkFrom (heap : Heap) (roots : Roots) (defines : Object → Option Value) :
    List ObjectId → List ObjectId → Lookup → Walk
  | [], visited, result => ⟨result, visited.reverse⟩
  | id :: queue, visited, result =>
    match defines (heap.object id), result with
    | some _, .found first _ => ⟨.ambiguous first id, (id :: visited).reverse⟩
    | some value, _ => heap.walkFrom roots defines queue (id :: visited) (.found id value)
    | none, _ =>
      heap.walkFrom roots defines
        (enqueue (id :: visited) queue (heap.neighbours roots id)) (id :: visited) result
termination_by queue visited => unseen (heap.targets roots) visited queue + queue.length
decreasing_by
  · have := unseen_cons_visited (heap.targets roots) visited queue id
    rw [List.length_cons]
    omega
  · have := unseen_cons_visited (heap.targets roots) visited queue id
    have := unseen_enqueue_add_length_le (heap.targets roots) (id :: visited) queue
      (heap.neighbours roots id) fun _ => mem_targets_of_mem_neighbours
    rw [List.length_cons]
    omega

/-- Breadth-first search for an object that `defines` accepts. -/
def walk (heap : Heap) (roots : Roots) (start : ObjectId) (defines : Object → Option Value) : Walk :=
  heap.walkFrom roots defines [start] [] .missing

/-- The object's own slot or the one of its scope. -/
def nearSlot? (heap : Heap) (roots : Roots) (id : ObjectId) (name : String) :
    Option (ObjectId × Value) :=
  match (heap.object id).slot? name with
  | some value => some (id, value)
  | none => do
    let scope := roots.startOf (← (heap.object id).scope)
    return (scope, ← (heap.object scope).slot? name)

/-- Looks a name up and remembers nothing. -/
def plainLookup (heap : Heap) (roots : Roots) (id : ObjectId) (name : String) : Lookup :=
  match heap.nearSlot? roots id name with
  | some (holder, value) => .found holder value
  | none => (heap.walk roots id (·.slot? name)).result

/-- The parent slot `name` that is nearest to `id`. -/
def parentSlotLookup (heap : Heap) (roots : Roots) (id : ObjectId) (name : String) : Lookup :=
  (heap.walk roots id (·.parent? name)).result

/-- What became of the end of an earlier search. -/
inductive CacheUse
  | hit (holder : ObjectId)
  | stale
deriving DecidableEq, Repr

/-- The outcome of a lookup, the heap that remembers it, and the use it made of an earlier one. -/
structure Resolved where
  result : Lookup
  heap : Heap
  use : Option CacheUse

/-- The value that an earlier search found, if everything it passed is as it was. -/
def recalled? (heap : Heap) (start : Object) (name : String) (entry : CachedSlot) : Option Value :=
  if entry.isValidFor heap start then (heap.object entry.holder).slot? name else none

/-- Breadth-first search for a slot, or the end of an earlier one that is still right. -/
def parentLookup (heap : Heap) (roots : Roots) (id : ObjectId) (name : String) : Resolved :=
  let start := heap.object id
  let entry := heap.cached? start.shape.id name
  match entry.bind fun entry => (heap.recalled? start name entry).map (entry.holder, ·) with
  | some (holder, value) => ⟨.found holder value, heap, some (.hit holder)⟩
  | none =>
    let walk := heap.walk roots id (·.slot? name)
    let use := entry.map fun _ => .stale
    match walk.result with
    | .found holder _ =>
      let checkpoints := walk.visited.map fun object => ⟨object, heap.versionOf object⟩
      ⟨walk.result,
        heap.remember start.shape.id name ⟨holder, checkpoints, start.scope, start.parentValues⟩, use⟩
    | _ => ⟨walk.result, heap, use⟩

/-- Looks a name up from the object `id`. -/
def slotLookup (heap : Heap) (roots : Roots) (id : ObjectId) (name : String) : Resolved :=
  match heap.nearSlot? roots id name with
  | some (holder, value) => ⟨.found holder value, heap, none⟩
  | none => heap.parentLookup roots id name

end Heap

end ProtoVm
