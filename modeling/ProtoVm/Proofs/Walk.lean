import ProtoVm.Lookup

/-!
# Breadth-first searches

A search is decided by the edges of the objects it passes and by which of them define the name. It
ends in the same place in two heaps that agree on these, and an object that defines nothing and leads
nowhere new can be left out of it.
-/

namespace ProtoVm.Heap

variable {heap heap' : Heap} {roots : Roots} {defines : Object → Option Value}

/-! ## The queue -/

theorem mem_enqueue_of_mem {visited queue ids : List ObjectId} {id : ObjectId} (h : id ∈ queue) :
    id ∈ enqueue visited queue ids := by
  fun_induction enqueue visited queue ids with
  | case1 queue => exact h
  | case2 queue other ids hseen ih => exact ih h
  | case3 queue other ids hnew ih => exact ih (List.mem_append_left _ h)

theorem mem_of_mem_enqueue {visited queue ids : List ObjectId} {id : ObjectId}
    (h : id ∈ enqueue visited queue ids) : id ∈ queue ∨ id ∈ ids := by
  fun_induction enqueue visited queue ids with
  | case1 queue => exact .inl h
  | case2 queue other ids hseen ih =>
    rcases ih h with h | h
    · exact .inl h
    · exact .inr (.tail _ h)
  | case3 queue other ids hnew ih =>
    rcases ih h with h | h
    · rcases List.mem_append.1 h with h | h
      · exact .inl h
      · exact .inr (List.mem_singleton.1 h ▸ List.mem_cons_self)
    · exact .inr (.tail _ h)

theorem mem_enqueue_or_mem_visited {visited queue ids : List ObjectId} {id : ObjectId}
    (h : id ∈ ids) : id ∈ visited ∨ id ∈ enqueue visited queue ids := by
  fun_induction enqueue visited queue ids with
  | case1 queue => cases h
  | case2 queue other ids hseen ih =>
    rcases List.mem_cons.1 h with rfl | h
    · exact hseen.imp_right mem_enqueue_of_mem
    · exact ih h
  | case3 queue other ids hnew ih =>
    rcases List.mem_cons.1 h with rfl | h
    · exact .inr (mem_enqueue_of_mem (by simp))
    · exact ih h

theorem enqueue_eq_self {visited queue ids : List ObjectId}
    (h : ∀ id ∈ ids, id ∈ visited ∨ id ∈ queue) : enqueue visited queue ids = queue := by
  induction ids with
  | nil => rfl
  | cons id ids ih =>
    unfold enqueue
    rw [if_pos (h id List.mem_cons_self)]
    exact ih fun other hother => h other (.tail _ hother)

/-- Leaving `id` out of the queue and counting it as passed has the same effect. -/
theorem filter_enqueue {visited visited' : List ObjectId} {id : ObjectId}
    (hvisited : ∀ other, other ∈ visited' ↔ other ∈ visited ∨ other = id)
    (queue ids : List ObjectId) :
    (enqueue visited queue ids).filter (· ≠ id) = enqueue visited' (queue.filter (· ≠ id)) ids := by
  fun_induction enqueue visited queue ids with
  | case1 queue => rfl
  | case2 queue other ids hseen ih =>
    rw [ih]
    conv => rhs; unfold enqueue
    have hother : other ∈ visited' ∨ other ∈ queue.filter (· ≠ id) := by
      by_cases heq : other = id
      · exact .inl ((hvisited other).2 (.inr heq))
      · rcases hseen with h | h
        · exact .inl ((hvisited other).2 (.inl h))
        · exact .inr (List.mem_filter.2 ⟨h, by simpa using heq⟩)
    rw [if_pos hother]
  | case3 queue other ids hnew ih =>
    rw [ih]
    conv => rhs; unfold enqueue
    by_cases heq : other = id
    · subst heq
      rw [if_pos (.inl ((hvisited other).2 (.inr rfl)))]
      simp
    · have hother : ¬(other ∈ visited' ∨ other ∈ queue.filter (· ≠ id)) := by
        rintro (h | h)
        · rcases (hvisited other).1 h with h | h
          · exact hnew (.inl h)
          · exact heq h
        · exact hnew (.inr (List.mem_filter.1 h).1)
      rw [if_neg hother]
      simp [heq]

/-! ## What a search passes -/

theorem walkFrom_cons_of_none {id : ObjectId} {queue visited : List ObjectId} {result : Lookup}
    (hdef : defines (heap.object id) = none) :
    heap.walkFrom roots defines (id :: queue) visited result =
      heap.walkFrom roots defines (enqueue (id :: visited) queue (heap.neighbours roots id))
        (id :: visited) result := by
  rw [walkFrom.eq_def]
  simp [hdef]

theorem walkFrom_cons_of_some {id : ObjectId} {queue visited : List ObjectId} {result : Lookup}
    {value : Value} (hdef : defines (heap.object id) = some value)
    (hresult : ∀ first found, result ≠ .found first found) :
    heap.walkFrom roots defines (id :: queue) visited result =
      heap.walkFrom roots defines queue (id :: visited) (.found id value) := by
  rw [walkFrom.eq_def]
  cases result with
  | found first found => exact absurd rfl (hresult first found)
  | missing => simp [hdef]
  | ambiguous first second => simp [hdef]

theorem walkFrom_cons_of_second {id first : ObjectId} {queue visited : List ObjectId}
    {found value : Value} (hdef : defines (heap.object id) = some value) :
    heap.walkFrom roots defines (id :: queue) visited (.found first found) =
      ⟨.ambiguous first id, (id :: visited).reverse⟩ := by
  rw [walkFrom.eq_def]
  simp [hdef]

theorem mem_visited_of_mem {queue visited : List ObjectId} {result : Lookup} {id : ObjectId}
    (h : id ∈ visited) : id ∈ (heap.walkFrom roots defines queue visited result).visited := by
  fun_induction walkFrom heap roots defines queue visited result with
  | case1 visited result => simpa using h
  | case2 next queue visited val first value hdef => simp [h]
  | case3 next queue visited result value hdef hnew ih => exact ih (.tail _ h)
  | case4 next queue visited result hdef ih => exact ih (.tail _ h)

/-- What holds of the start and along every edge holds of every object that a search passes. -/
theorem walkFrom_visited {P : ObjectId → Prop}
    (hstep : ∀ id, P id → ∀ next ∈ heap.neighbours roots id, P next)
    {queue visited : List ObjectId} {result : Lookup} (hqueue : ∀ id ∈ queue, P id)
    (hvisited : ∀ id ∈ visited, P id) :
    ∀ id ∈ (heap.walkFrom roots defines queue visited result).visited, P id := by
  fun_induction walkFrom heap roots defines queue visited result with
  | case1 visited result =>
    intro id hid
    exact hvisited id (List.mem_reverse.1 hid)
  | case2 next queue visited val first value hdef =>
    intro id hid
    rcases List.mem_cons.1 (List.mem_reverse.1 hid) with rfl | hid
    · exact hqueue id List.mem_cons_self
    · exact hvisited id hid
  | case3 next queue visited result value hdef hnew ih =>
    have hnext := hqueue next List.mem_cons_self
    exact ih (fun id hid => hqueue id (.tail _ hid)) (by simpa [hnext] using hvisited)
  | case4 next queue visited result hdef ih =>
    have hnext := hqueue next List.mem_cons_self
    refine ih ?_ (by simpa [hnext] using hvisited)
    intro id hid
    rcases mem_of_mem_enqueue hid with hid | hid
    · exact hqueue id (.tail _ hid)
    · exact hstep next hnext id hid

theorem walk_visited {P : ObjectId → Prop}
    (hstep : ∀ id, P id → ∀ next ∈ heap.neighbours roots id, P next) {start : ObjectId}
    (hstart : P start) : ∀ id ∈ (heap.walk roots start defines).visited, P id :=
  walkFrom_visited hstep (by simpa using hstart) (by simp)

theorem walk_visited_head (start : ObjectId) :
    ∃ rest, (heap.walk roots start defines).visited = start :: rest := by
  have hsuffix (queue visited : List ObjectId) (result : Lookup) :
      ∃ rest, (heap.walkFrom roots defines queue visited result).visited = visited.reverse ++ rest := by
    fun_induction walkFrom heap roots defines queue visited result with
    | case1 visited result => exact ⟨[], by simp⟩
    | case2 next queue visited val first value hdef => exact ⟨[next], by simp⟩
    | case3 next queue visited result value hdef hnew ih =>
      obtain ⟨rest, hrest⟩ := ih
      exact ⟨next :: rest, by simp [hrest]⟩
    | case4 next queue visited result hdef ih =>
      obtain ⟨rest, hrest⟩ := ih
      exact ⟨next :: rest, by simp [hrest]⟩
  unfold walk walkFrom
  split
  · exact ⟨[], by simp⟩
  · obtain ⟨rest, hrest⟩ := hsuffix [] [start] (.found start _)
    exact ⟨rest, by simpa using hrest⟩
  · obtain ⟨rest, hrest⟩ := hsuffix (enqueue [start] [] (heap.neighbours roots start)) [start] .missing
    exact ⟨rest, by simpa using hrest⟩

theorem walkFrom_found {queue visited : List ObjectId} {result : Lookup} {holder : ObjectId}
    {value : Value}
    (hresult : ∀ first found, result = .found first found →
      first ∈ visited ∧ defines (heap.object first) = some found)
    (h : (heap.walkFrom roots defines queue visited result).result = .found holder value) :
    holder ∈ (heap.walkFrom roots defines queue visited result).visited ∧
      defines (heap.object holder) = some value := by
  fun_induction walkFrom heap roots defines queue visited result with
  | case1 visited result =>
    obtain ⟨hmem, hdef⟩ := hresult holder value h
    exact ⟨List.mem_reverse.2 hmem, hdef⟩
  | case2 next queue visited val first value hdef => cases h
  | case3 next queue visited result found hdef hnew ih =>
    apply ih _ h
    intro first other heq
    cases heq
    exact ⟨List.mem_cons_self, hdef⟩
  | case4 next queue visited result hdef ih =>
    apply ih _ h
    intro first found heq
    obtain ⟨hmem, hdef⟩ := hresult first found heq
    exact ⟨.tail _ hmem, hdef⟩

/-- A search that succeeds passes the object it finds, and that object defines the name. -/
theorem walk_found {start holder : ObjectId} {value : Value}
    (h : (heap.walk roots start defines).result = .found holder value) :
    holder ∈ (heap.walk roots start defines).visited ∧ defines (heap.object holder) = some value :=
  walkFrom_found (by simp) h

theorem walkFrom_ambiguous {queue visited : List ObjectId} {result : Lookup}
    {first second : ObjectId}
    (hfound : ∀ holder found, result = .found holder found → holder ∈ visited)
    (hresult : ∀ holder other, result ≠ .ambiguous holder other)
    (h : (heap.walkFrom roots defines queue visited result).result = .ambiguous first second) :
    first ∈ (heap.walkFrom roots defines queue visited result).visited ∧
      second ∈ (heap.walkFrom roots defines queue visited result).visited := by
  fun_induction walkFrom heap roots defines queue visited result with
  | case1 visited result => exact absurd h (hresult first second)
  | case2 next queue visited val holder value hdef =>
    cases h
    exact ⟨by simp [hfound first value rfl], by simp⟩
  | case3 next queue visited result found hdef hnew ih =>
    refine ih (fun holder other heq => ?_) (fun holder other heq => by cases heq) h
    cases heq
    exact List.mem_cons_self
  | case4 next queue visited result hdef ih =>
    exact ih (fun holder found heq => .tail _ (hfound holder found heq)) hresult h

/-- A search that finds two objects passes both. -/
theorem walk_ambiguous {start first second : ObjectId}
    (h : (heap.walk roots start defines).result = .ambiguous first second) :
    first ∈ (heap.walk roots start defines).visited ∧ second ∈ (heap.walk roots start defines).visited :=
  walkFrom_ambiguous (by simp) (by simp) h

/-! ## Searches that agree -/

/-- The lookups end in the same objects, if not with the same value. -/
inductive SameEnd : Lookup → Lookup → Prop
  | missing : SameEnd .missing .missing
  | found (holder : ObjectId) (value value' : Value) : SameEnd (.found holder value) (.found holder value')
  | ambiguous (first second : ObjectId) : SameEnd (.ambiguous first second) (.ambiguous first second)

/-- The two heaps have the same edges at `id`, and it defines the name in both or in neither. -/
structure AgreeAt (heap heap' : Heap) (roots : Roots) (defines : Object → Option Value) (id : ObjectId) :
    Prop where
  neighbours_eq : heap'.neighbours roots id = heap.neighbours roots id
  isSome_eq : (defines (heap'.object id)).isSome = (defines (heap.object id)).isSome

theorem SameEnd.ne_found {result result' : Lookup} (h : SameEnd result result')
    (hresult : ∀ first found, result ≠ .found first found) (first : ObjectId) (found : Value) :
    result' ≠ .found first found := by
  cases h with
  | missing => exact nofun
  | found holder value value' => exact absurd rfl (hresult holder value)
  | ambiguous first second => exact nofun

theorem walkFrom_agree {queue visited : List ObjectId} {result result' : Lookup}
    (hsame : SameEnd result result')
    (hagree : ∀ id ∈ (heap.walkFrom roots defines queue visited result).visited,
      AgreeAt heap heap' roots defines id) :
    (heap'.walkFrom roots defines queue visited result').visited =
        (heap.walkFrom roots defines queue visited result).visited ∧
      SameEnd (heap.walkFrom roots defines queue visited result).result
        (heap'.walkFrom roots defines queue visited result').result := by
  fun_induction walkFrom heap roots defines queue visited result generalizing result' with
  | case1 visited result =>
    unfold walkFrom
    exact ⟨rfl, hsame⟩
  | case2 next queue visited val first value hdef =>
    have hnext := (hagree next (by simp)).isSome_eq
    rw [hdef, Option.isSome_some, Option.isSome_iff_exists] at hnext
    obtain ⟨val', hdef'⟩ := hnext
    cases hsame with
    | found _ _ value' =>
      rw [walkFrom_cons_of_second hdef']
      exact ⟨rfl, .ambiguous first next⟩
  | case3 next queue visited result value hdef hnew ih =>
    have hnext := (hagree next (mem_visited_of_mem List.mem_cons_self)).isSome_eq
    rw [hdef, Option.isSome_some, Option.isSome_iff_exists] at hnext
    obtain ⟨value', hdef'⟩ := hnext
    rw [walkFrom_cons_of_some hdef' (hsame.ne_found hnew)]
    exact ih (.found next value value') hagree
  | case4 next queue visited result hdef ih =>
    have hnext := hagree next (mem_visited_of_mem List.mem_cons_self)
    have hdef' : defines (heap'.object next) = none := by
      simpa [hdef] using hnext.isSome_eq
    rw [walkFrom_cons_of_none hdef', hnext.neighbours_eq]
    exact ih hsame hagree

/-- A search repeats itself in a heap that agrees on all it passed. -/
theorem walk_agree {start : ObjectId}
    (hagree : ∀ id ∈ (heap.walk roots start defines).visited, AgreeAt heap heap' roots defines id) :
    (heap'.walk roots start defines).visited = (heap.walk roots start defines).visited ∧
      SameEnd (heap.walk roots start defines).result (heap'.walk roots start defines).result :=
  walkFrom_agree .missing hagree

/-- Every edge of `id` leads to what has been passed or waits in the queue, or back to `id`. -/
def Closed (heap : Heap) (roots : Roots) (id : ObjectId) (queue visited : List ObjectId) : Prop :=
  ∀ next ∈ heap.neighbours roots id, next ∈ visited ∨ next ∈ queue ∨ next = id

theorem Closed.pass {id next : ObjectId} {queue queue' visited : List ObjectId}
    (h : heap.Closed roots id (next :: queue) visited) (hqueue : ∀ other ∈ queue, other ∈ queue') :
    heap.Closed roots id queue' (next :: visited) := by
  intro other hother
  rcases h other hother with hmem | hmem | heq
  · exact .inl (.tail _ hmem)
  · rcases List.mem_cons.1 hmem with rfl | hmem
    · exact .inl List.mem_cons_self
    · exact .inr (.inl (hqueue other hmem))
  · exact .inr (.inr heq)

/-- An object that defines nothing and leads nowhere new makes no difference to where a search ends:
it may as well have been passed before. -/
theorem walkFrom_skip {id : ObjectId} (hid : defines (heap.object id) = none)
    {queue visited visited' : List ObjectId} {result : Lookup}
    (hvisited : ∀ other, other ∈ visited' ↔ other ∈ visited ∨ other = id)
    (hclosed : heap.Closed roots id queue visited) :
    (heap.walkFrom roots defines (queue.filter (· ≠ id)) visited' result).result =
      (heap.walkFrom roots defines queue visited result).result := by
  have hother {next : ObjectId} {value : Value} (hdef : defines (heap.object next) = some value) : next ≠ id := by
    rintro rfl
    rw [hid] at hdef
    cases hdef
  fun_induction walkFrom heap roots defines queue visited result generalizing visited' with
  | case1 visited result =>
    unfold walkFrom
    rfl
  | case2 next queue visited val first value hdef =>
    rw [List.filter_cons_of_pos (by simpa using hother hdef), walkFrom_cons_of_second hdef]
  | case3 next queue visited result value hdef hnew ih =>
    rw [List.filter_cons_of_pos (by simpa using hother hdef), walkFrom_cons_of_some hdef hnew]
    apply ih
    · intro other
      simp only [List.mem_cons, hvisited, or_assoc]
    · exact hclosed.pass fun _ h => h
  | case4 next queue visited result hdef ih =>
    by_cases hne : next = id
    · -- the object itself comes up: nothing is added to the queue
      subst hne
      have hrest : heap.Closed roots next queue (next :: visited) := hclosed.pass fun _ h => h
      have hsame : enqueue (next :: visited) queue (heap.neighbours roots next) = queue := by
        apply enqueue_eq_self
        intro other hother
        rcases hrest other hother with h | h | rfl
        · exact .inl h
        · exact .inr h
        · exact .inl List.mem_cons_self
      rw [hsame] at ih ⊢
      rw [List.filter_cons_of_neg (by simp)]
      apply ih _ hrest
      intro other
      rw [hvisited, List.mem_cons]
      constructor
      · rintro (h | h)
        · exact .inl (.inr h)
        · exact .inr h
      · rintro ((h | h) | h)
        · exact .inr h
        · exact .inl h
        · exact .inr h
    · rw [List.filter_cons_of_pos (by simpa using hne), walkFrom_cons_of_none hdef]
      have hvisited' (other : ObjectId) :
          other ∈ next :: visited' ↔ other ∈ next :: visited ∨ other = id := by
        simp only [List.mem_cons, hvisited, or_assoc]
      rw [← filter_enqueue hvisited']
      exact ih hvisited' (hclosed.pass fun _ => mem_enqueue_of_mem)

/-- Two objects that define nothing and have the same edges begin searches with the same end, also
where one of them is passed in the search of the other. -/
theorem walk_result_eq_of_neighbours_eq {first second : ObjectId}
    (hfirst : defines (heap.object first) = none) (hsecond : defines (heap.object second) = none)
    (hedges : heap.neighbours roots first = heap.neighbours roots second) :
    (heap.walk roots first defines).result = (heap.walk roots second defines).result := by
  unfold walk
  rw [walkFrom_cons_of_none hfirst, walkFrom_cons_of_none hsecond, ← hedges]
  have hclosed (start other : ObjectId) (hedges : heap.neighbours roots other = heap.neighbours roots first) :
      heap.Closed roots other (enqueue [start] [] (heap.neighbours roots first)) [start] := by
    intro next hnext
    rw [hedges] at hnext
    exact (mem_enqueue_or_mem_visited hnext).imp_right .inl
  have hboth (other : ObjectId) : other ∈ [first, second] ↔ other ∈ [first] ∨ other = second := by
    simp
  have hboth' (other : ObjectId) : other ∈ [first, second] ↔ other ∈ [second] ∨ other = first := by
    simp [or_comm]
  rw [← walkFrom_skip hsecond hboth (hclosed first second hedges.symm),
    ← walkFrom_skip hfirst hboth' (hclosed second first rfl), filter_enqueue hboth, filter_enqueue hboth']
  rfl

end ProtoVm.Heap
