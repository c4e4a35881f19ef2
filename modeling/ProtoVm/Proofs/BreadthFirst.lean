import Mathlib.Data.List.Shortlex
import ProtoVm.Proofs.BlockScope
import ProtoVm.Proofs.Representation

/-!
# The order of a search

A search that does not go beyond the objects that own a name comes to those objects that a route through objects
without the name leads to. It comes to them in the order of their routes: shorter routes first, and earlier edges
first among routes of one length. The loop keeps this order because the objects that wait in the queue are sorted
by the least route to them, and every route that is less than those of the queue ends in an object that was passed.
-/

namespace ProtoVm

/-! ## Routes -/

/-- The numbers of the edges to take. -/
abbrev Route := List Nat

namespace Route

/-- Shorter routes come first, and of two routes of one length the one that takes the earlier edge where they
part. -/
abbrev Before : Route → Route → Prop := List.Shortlex (· < ·)

variable {route other : Route} {first second : Nat}

instance : IsWellOrder Route Before where
  wf := List.Shortlex.wf Nat.lt_wfRel.wf

theorem before_append (route : Route) (edge : Nat) : Before route (route ++ [edge]) :=
  .of_length_lt (by simp)

theorem before_append_append (h : first < second) : Before (route ++ [first]) (route ++ [second]) :=
  List.Shortlex.append_left ((List.shortlex_singleton_iff first second).2 h) route

theorem Before.append (h : Before route other) (first second : Nat) :
    Before (route ++ [first]) (other ++ [second]) := by
  rcases List.shortlex_def.1 h with hlength | ⟨hlength, hlex⟩
  · apply List.Shortlex.of_length_lt
    simpa using hlength
  · apply List.Shortlex.of_lex (by simpa using hlength)
    clear h
    induction hlex with
    | nil => cases hlength
    | cons h ih => exact .cons (ih (by simpa using hlength))
    | rel h => exact .rel h

theorem before_of_append (h : Before (route ++ [first]) (other ++ [second])) :
    Before route other ∨ route = other ∧ first < second := by
  rcases trichotomous_of Before route other with hlt | rfl | hgt
  · exact .inl hlt
  · refine .inr ⟨rfl, ?_⟩
    by_contra hle
    rcases Nat.lt_or_eq_of_le (Nat.le_of_not_lt hle) with hlt | rfl
    · exact asymm_of Before h (before_append_append hlt)
    · exact irrefl_of Before _ h
  · exact absurd (hgt.append second first) (asymm_of Before h)

end Route

open Route (Before)

namespace Heap

/-- The least set that has `start` in it and, with every object in it that does not own the name, what the scope
and the parents of this object lead to. -/
inductive Reaches (heap : Heap) (roots : Roots) (owns : Object → Bool) (start : ObjectId) : ObjectId → Prop
  | start : Reaches heap roots owns start start
  | scope {id : ObjectId} {value : Value} (h : Reaches heap roots owns start id)
      (hopen : owns (heap.object id) = false) (hvalue : (heap.object id).scope = some value) :
      Reaches heap roots owns start (roots.startOf value)
  | parent {id : ObjectId} {value : Value} (h : Reaches heap roots owns start id)
      (hopen : owns (heap.object id) = false) (hvalue : value ∈ (heap.object id).parentValues) :
      Reaches heap roots owns start (roots.startOf value)

/-- The route leads from `start` to an object, and none of the objects before it owns the name. The scope of an
object is its first edge, and its parents follow in storage order. -/
inductive Connects (heap : Heap) (roots : Roots) (owns : Object → Bool) (start : ObjectId) :
    Route → ObjectId → Prop
  | stay : Connects heap roots owns start [] start
  | go {route : Route} {id : ObjectId} {edge : Nat} {value : Value} (h : Connects heap roots owns start route id)
      (hopen : owns (heap.object id) = false)
      (hedge : ((heap.object id).scope.toList ++ (heap.object id).parentValues)[edge]? = some value) :
      Connects heap roots owns start (route ++ [edge]) (roots.startOf value)

variable {heap : Heap} {roots : Roots} {owns : Object → Bool} {start id next : ObjectId} {route other : Route}
  {edge : Nat}

theorem Connects.step (h : heap.Connects roots owns start route id) (hopen : owns (heap.object id) = false)
    (hedge : (heap.neighbours roots id)[edge]? = some next) :
    heap.Connects roots owns start (route ++ [edge]) next := by
  rw [neighbours, List.getElem?_map, Option.map_eq_some_iff] at hedge
  obtain ⟨value, hvalue, rfl⟩ := hedge
  exact .go h hopen hvalue

theorem connects_append_iff : heap.Connects roots owns start (route ++ [edge]) next ↔
    ∃ id, heap.Connects roots owns start route id ∧ owns (heap.object id) = false ∧
      (heap.neighbours roots id)[edge]? = some next := by
  constructor
  · intro h
    generalize hroute : route ++ [edge] = whole at h
    cases h with
    | stay => simp at hroute
    | @go before id last value h hopen hedge =>
      obtain ⟨rfl, hlast⟩ := List.append_inj' hroute rfl
      cases hlast
      refine ⟨id, h, hopen, ?_⟩
      rw [neighbours, List.getElem?_map, Object.edges, hedge]
      rfl
  · rintro ⟨id, h, hopen, hedge⟩
    exact h.step hopen hedge

theorem Connects.unique {id' : ObjectId} (h : heap.Connects roots owns start route id)
    (h' : heap.Connects roots owns start route id') : id = id' := by
  induction h generalizing id' with
  | stay =>
    generalize hroute : ([] : Route) = route at h'
    cases h' with
    | stay => rfl
    | go => simp at hroute
  | go h hopen hedge ih =>
    obtain ⟨before, hbefore, -, hnext⟩ := connects_append_iff.1 h'
    cases ih hbefore
    rw [neighbours, List.getElem?_map, Object.edges, hedge] at hnext
    simpa using hnext

theorem reaches_iff : heap.Reaches roots owns start id ↔ ∃ route, heap.Connects roots owns start route id := by
  constructor
  · intro h
    induction h with
    | start => exact ⟨[], .stay⟩
    | @scope id value h hopen hvalue ih =>
      obtain ⟨route, hroute⟩ := ih
      exact ⟨route ++ [0], .go hroute hopen (by simp [hvalue])⟩
    | @parent id value h hopen hvalue ih =>
      obtain ⟨route, hroute⟩ := ih
      obtain ⟨edge, hedge⟩ := List.mem_iff_getElem?.1
        (List.mem_append_right (heap.object id).scope.toList hvalue)
      exact ⟨route ++ [edge], .go hroute hopen hedge⟩
  · rintro ⟨route, h⟩
    induction h with
    | stay => exact .start
    | go h hopen hedge ih =>
      rcases List.mem_append.1 (List.mem_of_getElem? hedge) with hscope | hparent
      · exact .scope ih hopen (by simpa using hscope)
      · exact .parent ih hopen hparent

/-- The first of all routes to an object. -/
def Foremost (heap : Heap) (roots : Roots) (owns : Object → Bool) (start : ObjectId) (route : Route) (id : ObjectId) :
    Prop :=
  heap.Connects roots owns start route id ∧
    ∀ other, heap.Connects roots owns start other id → ¬Before other route

/-- In a breadth-first search, `first` comes before `second`. -/
def Precedes (heap : Heap) (roots : Roots) (owns : Object → Bool) (start first second : ObjectId) : Prop :=
  ∃ route other, heap.Foremost roots owns start route first ∧ heap.Foremost roots owns start other second ∧
    Before route other

theorem Reaches.foremost (h : heap.Reaches roots owns start id) :
    ∃ route, heap.Foremost roots owns start route id := by
  obtain ⟨route, hroute, hmin⟩ := IsWellFounded.wf (r := Before).has_min
    {route | heap.Connects roots owns start route id} (reaches_iff.1 h)
  exact ⟨route, hroute, hmin⟩

theorem Foremost.reaches (h : heap.Foremost roots owns start route id) : heap.Reaches roots owns start id :=
  reaches_iff.2 ⟨route, h.1⟩

theorem Foremost.unique (h : heap.Foremost roots owns start route id)
    (h' : heap.Foremost roots owns start other id) : route = other := by
  rcases trichotomous_of Before route other with hlt | heq | hgt
  · exact absurd hlt (h'.2 route h.1)
  · exact heq
  · exact absurd hgt (h.2 other h'.1)

theorem Foremost.stay : heap.Foremost roots owns start [] start :=
  ⟨.stay, fun _ _ => List.not_shortlex_nil_right⟩

theorem Precedes.before {second : ObjectId} (h : heap.Precedes roots owns start id second)
    (hroute : heap.Foremost roots owns start route id) (hother : heap.Foremost roots owns start other second) :
    Before route other := by
  obtain ⟨route', other', hroute', hother', hbefore⟩ := h
  rw [hroute.unique hroute', hother.unique hother']
  exact hbefore

theorem Precedes.reaches {second : ObjectId} (h : heap.Precedes roots owns start id second) :
    heap.Reaches roots owns start id ∧ heap.Reaches roots owns start second := by
  obtain ⟨route, other, hroute, hother, -⟩ := h
  exact ⟨hroute.reaches, hother.reaches⟩

theorem Precedes.trans {second third : ObjectId} (h : heap.Precedes roots owns start id second)
    (h' : heap.Precedes roots owns start second third) : heap.Precedes roots owns start id third := by
  obtain ⟨between, other, hbetween, hother, hbefore⟩ := h'
  have hfirst := h
  obtain ⟨route, -, hroute, -, -⟩ := hfirst
  exact ⟨route, other, hroute, hother, trans_of Before (h.before hroute hbetween) hbefore⟩

theorem Precedes.asymm {second : ObjectId} (h : heap.Precedes roots owns start id second) :
    ¬heap.Precedes roots owns start second id := by
  intro h'
  obtain ⟨route, other, hroute, hother, hbefore⟩ := h
  exact asymm_of Before hbefore (h'.before hother hroute)

theorem Precedes.ne {second : ObjectId} (h : heap.Precedes roots owns start id second) : id ≠ second := by
  rintro rfl
  exact h.asymm h

/-! ## The loop -/

/-- The objects are sorted by the first routes to them, all of which come before `bound`. -/
structure Ranked (heap : Heap) (roots : Roots) (owns : Object → Bool) (start : ObjectId) (known : List ObjectId)
    (bound : Route) : Prop where
  foremost : ∀ id ∈ known, ∃ route, heap.Foremost roots owns start route id ∧ Before route bound
  sorted : known.Pairwise (heap.Precedes roots owns start)

variable {known visited queue : List ObjectId} {bound bound' : Route}

theorem Ranked.mono (h : heap.Ranked roots owns start known bound) (hbound : bound = bound' ∨ Before bound bound') :
    heap.Ranked roots owns start known bound' := by
  rcases hbound with rfl | hbound
  · exact h
  · refine ⟨fun id hid => ?_, h.sorted⟩
    obtain ⟨route, hroute, hbefore⟩ := h.foremost id hid
    exact ⟨route, hroute, trans_of Before hbefore hbound⟩

theorem Ranked.append (h : heap.Ranked roots owns start known bound)
    (hid : heap.Foremost roots owns start bound id) (hbound : Before bound bound') :
    heap.Ranked roots owns start (known ++ [id]) bound' := by
  constructor
  · intro other hother
    rcases List.mem_append.1 hother with hother | hother
    · exact (h.mono (.inr hbound)).foremost other hother
    · cases List.mem_singleton.1 hother
      exact ⟨bound, hid, hbound⟩
  · refine List.pairwise_append.2 ⟨h.sorted, List.pairwise_singleton _ _, ?_⟩
    intro first hfirst second hsecond
    cases List.mem_singleton.1 hsecond
    obtain ⟨route, hroute, hbefore⟩ := h.foremost first hfirst
    exact ⟨route, bound, hroute, hid, hbefore⟩

/-- What the search knows when it has passed `visited`, the last object first, and `queue` waits. Whatever comes
into the queue behind an object of the queue is farther than all that is known. -/
structure Frontier (heap : Heap) (roots : Roots) (owns : Object → Bool) (start : ObjectId)
    (visited queue : List ObjectId) : Prop where
  start_mem : start ∈ visited.reverse ++ queue
  ranked : ∃ bound, heap.Ranked roots owns start (visited.reverse ++ queue) bound ∧
    ∀ id ∈ queue, ∀ route, heap.Foremost roots owns start route id →
      bound = route ++ [0] ∨ Before bound (route ++ [0])
  closed : ∀ id ∈ visited, owns (heap.object id) = false → ∀ next ∈ heap.neighbours roots id,
    next ∈ visited.reverse ++ queue

namespace Frontier

theorem initial : heap.Frontier roots owns start [] [start] where
  start_mem := by simp
  ranked := by
    refine ⟨[0], ⟨?_, List.pairwise_singleton _ _⟩, ?_⟩
    · intro id hid
      cases List.mem_singleton.1 hid
      exact ⟨[], .stay, .of_length_lt (by simp)⟩
    · intro id hid route hroute
      cases List.mem_singleton.1 hid
      cases hroute.unique .stay
      exact .inl rfl
  closed := by simp

/-- Where a route ends was passed, or something waits to which a route leads that is no later. -/
theorem mem_or_le (hf : heap.Frontier roots owns start visited queue)
    (h : heap.Connects roots owns start route id) :
    id ∈ visited ∨ ∃ waiting ∈ queue, ∃ least, heap.Foremost roots owns start least waiting ∧
      ¬Before route least := by
  have hknown {id : ObjectId} {route : Route} (h : heap.Connects roots owns start route id)
      (hid : id ∈ visited.reverse ++ queue) :
      id ∈ visited ∨ ∃ waiting ∈ queue, ∃ least, heap.Foremost roots owns start least waiting ∧
        ¬Before route least := by
    rcases List.mem_append.1 hid with hid | hqueue
    · exact .inl (List.mem_reverse.1 hid)
    · obtain ⟨least, hleast⟩ := (reaches_iff.2 ⟨route, h⟩).foremost
      exact .inr ⟨id, hqueue, least, hleast, hleast.2 route h⟩
  induction h with
  | stay => exact hknown .stay hf.start_mem
  | @go route id edge value h hopen hedge ih =>
    rcases ih with hvisited | ⟨waiting, hwaiting, least, hleast, hle⟩
    · have hnext : roots.startOf value ∈ heap.neighbours roots id :=
        List.mem_map_of_mem (List.mem_of_getElem? hedge)
      exact hknown (.go h hopen hedge) (hf.closed id hvisited hopen _ hnext)
    · refine .inr ⟨waiting, hwaiting, least, hleast, fun hbefore => hle ?_⟩
      exact trans_of Before (Route.before_append route edge) hbefore

theorem mem_of_before (hf : heap.Frontier roots owns start visited (next :: queue))
    (hnext : heap.Foremost roots owns start route next) (h : heap.Connects roots owns start other id)
    (hbefore : Before other route) : id ∈ visited := by
  rcases hf.mem_or_le h with hid | ⟨waiting, hwaiting, least, hleast, hle⟩
  · exact hid
  · exfalso
    apply hle
    rcases List.mem_cons.1 hwaiting with rfl | hwaiting
    · rwa [← hnext.unique hleast]
    · obtain ⟨bound, hranked, -⟩ := hf.ranked
      have hsorted := List.rel_of_pairwise_cons (List.pairwise_append.1 hranked.sorted).2.1 hwaiting
      exact trans_of Before hbefore (hsorted.before hnext hleast)

theorem mem_of_reaches (hf : heap.Frontier roots owns start visited [])
    (h : heap.Reaches roots owns start id) : id ∈ visited := by
  obtain ⟨route, hroute⟩ := reaches_iff.1 h
  simpa using hf.mem_or_le hroute

/-- The objects that are known when `next` has been passed, with a bound behind `next`, are a frontier. -/
theorem of_ranked (hstart : start ∈ (next :: visited).reverse ++ queue)
    (hnext : heap.Foremost roots owns start route next)
    (hranked : heap.Ranked roots owns start ((next :: visited).reverse ++ queue) (route ++ [edge]))
    (hclosed : ∀ id ∈ next :: visited, owns (heap.object id) = false → ∀ other ∈ heap.neighbours roots id,
      other ∈ (next :: visited).reverse ++ queue) :
    heap.Frontier roots owns start (next :: visited) queue where
  start_mem := hstart
  ranked := by
    refine ⟨_, hranked, fun id hid least hleast => .inr ?_⟩
    have hprecedes := (List.pairwise_append.1 hranked.sorted).2.2 next (by simp) id hid
    exact (hprecedes.before hnext hleast).append edge 0
  closed := hclosed

theorem ranked_head (hf : heap.Frontier roots owns start visited (next :: queue)) :
    ∃ route, heap.Foremost roots owns start route next ∧
      heap.Ranked roots owns start ((next :: visited).reverse ++ queue) (route ++ [0]) := by
  obtain ⟨bound, hranked, hbound⟩ := hf.ranked
  obtain ⟨route, hroute, -⟩ := hranked.foremost next (by simp)
  refine ⟨route, hroute, ?_⟩
  simpa using hranked.mono (hbound next List.mem_cons_self route hroute)

/-- An object that owns the name is passed and not opened. -/
theorem pass (hf : heap.Frontier roots owns start visited (next :: queue)) (howns : owns (heap.object next) = true) :
    heap.Frontier roots owns start (next :: visited) queue := by
  obtain ⟨route, hroute, hranked⟩ := hf.ranked_head
  refine of_ranked (by simpa using hf.start_mem) hroute hranked ?_
  intro id hid hopen other hother
  rcases List.mem_cons.1 hid with rfl | hid
  · rw [howns] at hopen
    cases hopen
  · simpa using hf.closed id hid hopen other hother

/-- Opening an object keeps the order, one edge after the other. The edges of the objects before it are known, so
that the route through the object is the first to what is new. -/
theorem ranked_enqueue (hnext : heap.Foremost roots owns start route next)
    (hopen : owns (heap.object next) = false) {front ids : List ObjectId}
    (hids : heap.neighbours roots next = front ++ ids)
    (hranked : heap.Ranked roots owns start (visited.reverse ++ queue) (route ++ [front.length]))
    (hstart : start ∈ visited.reverse ++ queue)
    (hfront : ∀ id ∈ front, id ∈ visited.reverse ++ queue)
    (hbefore : ∀ other id, heap.Connects roots owns start other id → Before other route →
      owns (heap.object id) = false → ∀ last ∈ heap.neighbours roots id, last ∈ visited.reverse ++ queue) :
    heap.Ranked roots owns start (visited.reverse ++ enqueue visited queue ids)
      (route ++ [(heap.neighbours roots next).length]) := by
  induction ids generalizing front queue with
  | nil =>
    rw [List.append_nil] at hids
    rw [hids, enqueue]
    exact hranked
  | cons id ids ih =>
    have hids' : heap.neighbours roots next = (front ++ [id]) ++ ids := by simpa using hids
    have hlater : Before (route ++ [front.length]) (route ++ [(front ++ [id]).length]) :=
      Route.before_append_append (by simp)
    unfold enqueue
    split
    · rename_i hseen
      have hid : id ∈ visited.reverse ++ queue := by simpa using hseen
      refine ih hids' (hranked.mono (.inr hlater)) hstart ?_ hbefore
      intro other hother
      rcases List.mem_append.1 hother with hother | hother
      · exact hfront other hother
      · exact List.mem_singleton.1 hother ▸ hid
    · rename_i hnew
      have hid : id ∉ visited.reverse ++ queue := by simpa using hnew
      have hedge : (heap.neighbours roots next)[front.length]? = some id := by simp [hids]
      have hforemost : heap.Foremost roots owns start (route ++ [front.length]) id := by
        refine ⟨hnext.1.step hopen hedge, ?_⟩
        intro other hother hearlier
        rcases List.eq_nil_or_concat other with rfl | ⟨between, last, rfl⟩
        · exact hid (hother.unique .stay ▸ hstart)
        · rw [List.concat_eq_append] at hother hearlier
          obtain ⟨via, hvia, hviaOpen, hlast⟩ := connects_append_iff.1 hother
          rcases Route.before_of_append hearlier with hlt | ⟨rfl, hlt⟩
          · exact hid (hbefore between via hvia hlt hviaOpen id (List.mem_of_getElem? hlast))
          · cases hvia.unique hnext.1
            apply hid
            apply hfront id
            rw [hids, List.getElem?_append_left hlt] at hlast
            exact List.mem_of_getElem? hlast
      have hgrown {other : ObjectId} (h : other ∈ visited.reverse ++ queue) :
          other ∈ visited.reverse ++ (queue ++ [id]) := by
        rw [← List.append_assoc]
        exact List.mem_append_left _ h
      refine ih hids' ?_ (hgrown hstart) ?_ ?_
      · rw [← List.append_assoc]
        exact hranked.append hforemost hlater
      · intro other hother
        rcases List.mem_append.1 hother with hother | hother
        · exact hgrown (hfront other hother)
        · simp [List.mem_singleton.1 hother]
      · intro other via hvia hlt hviaOpen last hlast
        exact hgrown (hbefore other via hvia hlt hviaOpen last hlast)

/-- An object that does not own the name is passed, and its edges are followed. -/
theorem expand (hf : heap.Frontier roots owns start visited (next :: queue))
    (hopen : owns (heap.object next) = false) :
    heap.Frontier roots owns start (next :: visited)
      (enqueue (next :: visited) queue (heap.neighbours roots next)) := by
  obtain ⟨route, hroute, hranked⟩ := hf.ranked_head
  have hsame {id : ObjectId} (h : id ∈ visited.reverse ++ next :: queue) :
      id ∈ (next :: visited).reverse ++ queue := by
    simpa using h
  have hgrown {id : ObjectId} (h : id ∈ (next :: visited).reverse ++ queue) :
      id ∈ (next :: visited).reverse ++ enqueue (next :: visited) queue (heap.neighbours roots next) := by
    rcases List.mem_append.1 h with h | h
    · exact List.mem_append_left _ h
    · exact List.mem_append_right _ (mem_enqueue_of_mem h)
  refine of_ranked (hgrown (hsame hf.start_mem)) hroute
    (ranked_enqueue hroute hopen (List.nil_append _).symm hranked (hsame hf.start_mem) (by simp) ?_) ?_
  · intro other id hid hbefore hidOpen last hlast
    exact hsame (hf.closed id (hf.mem_of_before hroute hid hbefore) hidOpen last hlast)
  · intro id hid hidOpen other hother
    rcases List.mem_cons.1 hid with rfl | hid
    · rcases mem_enqueue_or_mem_visited hother with hmem | hmem
      · exact List.mem_append_left _ (List.mem_reverse.2 hmem)
      · exact List.mem_append_right _ hmem
    · exact hgrown (hsame (hf.closed id hid hidOpen other hother))

end Frontier

/-! ## The whole search -/

/-- What a search has found among the objects it passed, while it has found at most one. -/
def Tallies (heap : Heap) (defines : Object → Option Value) (visited : List ObjectId) : Lookup → Prop
  | .missing => ∀ id ∈ visited, defines (heap.object id) = none
  | .found holder value => holder ∈ visited ∧ defines (heap.object holder) = some value ∧
      ∀ id ∈ visited, defines (heap.object id) ≠ none → id = holder
  | .ambiguous _ _ => False

/-- The search came upon `second` when it had found `first` only. -/
structure Conflict (heap : Heap) (roots : Roots) (owns : Object → Bool) (defines : Object → Option Value)
    (start : ObjectId) (visited : List ObjectId) (first second : ObjectId) : Prop where
  frontier : ∃ passed queue, visited = (second :: passed).reverse ∧
    heap.Frontier roots owns start passed (second :: queue) ∧ ∃ value, heap.Tallies defines passed (.found first value)
  second_owns : owns (heap.object second) = true

variable {defines : Object → Option Value} {result : Lookup}

theorem Tallies.pass (h : heap.Tallies defines visited result) (hnone : defines (heap.object next) = none) :
    heap.Tallies defines (next :: visited) result := by
  cases result with
  | missing => simpa [Tallies, hnone] using h
  | found holder value =>
    obtain ⟨hmem, hvalue, hunique⟩ := h
    refine ⟨.tail _ hmem, hvalue, fun id hid hsome => ?_⟩
    rcases List.mem_cons.1 hid with rfl | hid
    · exact absurd hnone hsome
    · exact hunique id hid hsome
  | ambiguous first second => exact h

theorem Tallies.find (h : heap.Tallies defines visited result) (hnew : ∀ first value, result ≠ .found first value)
    {value : Value} (hsome : defines (heap.object next) = some value) :
    heap.Tallies defines (next :: visited) (.found next value) := by
  refine ⟨List.mem_cons_self, hsome, fun id hid hid' => ?_⟩
  rcases List.mem_cons.1 hid with rfl | hid
  · rfl
  · cases result with
    | missing => exact absurd (h id hid) hid'
    | found first value => exact absurd rfl (hnew first value)
    | ambiguous first second => exact h.elim

/-- A search ends when nothing waits any more, or at the second object that owns the name. -/
theorem walkFrom_ends (howns : ∀ id, (defines (heap.object id)).isSome = owns (heap.object id))
    (hf : heap.Frontier roots owns start visited queue) (ht : heap.Tallies defines visited result) :
    let walk := heap.walkFrom roots defines queue visited result
    heap.Frontier roots owns start walk.visited.reverse [] ∧ heap.Tallies defines walk.visited.reverse walk.result ∨
      ∃ first second, walk.result = .ambiguous first second ∧
        heap.Conflict roots owns defines start walk.visited first second := by
  fun_induction walkFrom heap roots defines queue visited result with
  | case1 visited result =>
    left
    simpa using ⟨hf, ht⟩
  | case2 next queue visited value first found hdef =>
    refine .inr ⟨first, next, rfl, ⟨visited, queue, rfl, hf, found, ht⟩, ?_⟩
    rw [← howns, hdef]
    rfl
  | case3 next queue visited result value hdef hnew ih =>
    have hnext : owns (heap.object next) = true := by
      rw [← howns, hdef]
      rfl
    exact ih (hf.pass hnext) (ht.find hnew hdef)
  | case4 next queue visited result hdef ih =>
    have hnext : owns (heap.object next) = false := by
      rw [← howns, hdef]
      rfl
    exact ih (hf.expand hnext) (ht.pass hdef)

/-- `first` and `second` are the first two objects that own the name, in the order of a breadth-first search. -/
structure FirstTwo (heap : Heap) (roots : Roots) (owns : Object → Bool) (start first second : ObjectId) : Prop where
  first_owns : owns (heap.object first) = true
  second_owns : owns (heap.object second) = true
  precedes : heap.Precedes roots owns start first second
  others : ∀ id, heap.Reaches roots owns start id → owns (heap.object id) = true →
    id = first ∨ id = second ∨ heap.Precedes roots owns start second id

/-- No object that owns the name comes before the first. -/
theorem FirstTwo.first_le {first second : ObjectId} (h : heap.FirstTwo roots owns start first second)
    (hid : heap.Reaches roots owns start id) (howns : owns (heap.object id) = true) :
    id = first ∨ heap.Precedes roots owns start first id := by
  rcases h.others id hid howns with heq | rfl | hlater
  · exact .inl heq
  · exact .inr h.precedes
  · exact .inr (h.precedes.trans hlater)

theorem FirstTwo.unique {first second first' second' : ObjectId} (h : heap.FirstTwo roots owns start first second)
    (h' : heap.FirstTwo roots owns start first' second') : first = first' ∧ second = second' := by
  obtain ⟨hreaches₁, hreaches₂⟩ := h.precedes.reaches
  obtain ⟨hreaches₁', hreaches₂'⟩ := h'.precedes.reaches
  have hfirst : first = first' := by
    rcases h'.first_le hreaches₁ h.first_owns with heq | hlt
    · exact heq
    · rcases h.first_le hreaches₁' h'.first_owns with heq | hgt
      · exact heq.symm
      · exact absurd hgt hlt.asymm
  subst hfirst
  refine ⟨rfl, ?_⟩
  rcases h'.others second hreaches₂ h.second_owns with heq | heq | hlt
  · exact absurd heq.symm h.precedes.ne
  · exact heq
  · rcases h.others second' hreaches₂' h'.second_owns with heq | heq | hgt
    · exact absurd heq.symm h'.precedes.ne
    · exact heq.symm
    · exact absurd hgt hlt.asymm

/-- The object that a search comes upon when it has found one is the next that owns the name. -/
theorem Conflict.firstTwo {first second : ObjectId} {visited : List ObjectId}
    (howns : ∀ id, (defines (heap.object id)).isSome = owns (heap.object id))
    (h : heap.Conflict roots owns defines start visited first second) :
    heap.FirstTwo roots owns start first second := by
  obtain ⟨⟨passed, queue, -, hf, value, hfirst, hvalue, hunique⟩, hsecond⟩ := h
  obtain ⟨route, hroute, hranked⟩ := hf.ranked_head
  refine ⟨by rw [← howns, hvalue]; rfl, hsecond, ?_, fun id hid hidOwns => ?_⟩
  · have hsorted := hranked.sorted
    rw [List.reverse_cons, List.append_assoc] at hsorted
    exact (List.pairwise_append.1 hsorted).2.2 first (List.mem_reverse.2 hfirst) second (by simp)
  · obtain ⟨other, hother⟩ := hid.foremost
    rcases trichotomous_of Before other route with hlt | rfl | hgt
    · left
      refine hunique id (hf.mem_of_before hroute hother.1 hlt) fun hnone => ?_
      rw [← howns, hnone] at hidOwns
      cases hidOwns
    · exact .inr (.inl (hother.1.unique hroute.1))
    · exact .inr (.inr ⟨route, other, hroute, hother, hgt⟩)

/-- What the objects that `start` reaches and that own the name say about it. -/
def Verdict (heap : Heap) (roots : Roots) (owns : Object → Bool) (defines : Object → Option Value)
    (start : ObjectId) : Lookup → Prop
  | .missing => ∀ id, heap.Reaches roots owns start id → owns (heap.object id) = false
  | .found holder value =>
    (∀ id, heap.Reaches roots owns start id ∧ owns (heap.object id) = true ↔ id = holder) ∧
      defines (heap.object holder) = some value
  | .ambiguous first second => heap.FirstTwo roots owns start first second

theorem Verdict.unique {result' : Lookup} (h : heap.Verdict roots owns defines start result)
    (h' : heap.Verdict roots owns defines start result') : result = result' := by
  have hmissing (holder : ObjectId) (hreaches : heap.Reaches roots owns start holder)
      (hholder : owns (heap.object holder) = true) : ¬heap.Verdict roots owns defines start .missing := by
    intro hnone
    rw [hnone holder hreaches] at hholder
    cases hholder
  have hfound {first second holder : ObjectId} {value : Value} (htwo : heap.FirstTwo roots owns start first second) :
      ¬heap.Verdict roots owns defines start (.found holder value) := by
    rintro ⟨hone, -⟩
    obtain ⟨hreaches₁, hreaches₂⟩ := htwo.precedes.reaches
    have hfirst := (hone first).1 ⟨hreaches₁, htwo.first_owns⟩
    have hsecond := (hone second).1 ⟨hreaches₂, htwo.second_owns⟩
    exact htwo.precedes.ne (hfirst.trans hsecond.symm)
  cases result with
  | missing =>
    cases result' with
    | missing => rfl
    | found holder value =>
      obtain ⟨hreaches, hholder⟩ := (h'.1 holder).2 rfl
      exact absurd h (hmissing holder hreaches hholder)
    | ambiguous first second => exact absurd h (hmissing first h'.precedes.reaches.1 h'.first_owns)
  | found holder value =>
    obtain ⟨hreaches, hholder⟩ := (h.1 holder).2 rfl
    cases result' with
    | missing => exact absurd h' (hmissing holder hreaches hholder)
    | found holder' value' =>
      cases (h'.1 holder).1 ⟨hreaches, hholder⟩
      rw [Option.some.inj (h.2.symm.trans h'.2)]
    | ambiguous first second => exact absurd h (hfound h')
  | ambiguous first second =>
    cases result' with
    | missing => exact absurd h' (hmissing first h.precedes.reaches.1 h.first_owns)
    | found holder value => exact absurd h' (hfound h)
    | ambiguous first' second' =>
      obtain ⟨rfl, rfl⟩ := h.unique h'
      rfl

/-- A search that has passed all it can reach has found what there is. -/
theorem Tallies.verdict (howns : ∀ id, (defines (heap.object id)).isSome = owns (heap.object id))
    (hall : ∀ id, heap.Reaches roots owns start id ↔ id ∈ visited) (h : heap.Tallies defines visited result) :
    heap.Verdict roots owns defines start result := by
  cases result with
  | missing =>
    intro id hid
    rw [← howns, h id ((hall id).1 hid)]
    rfl
  | found holder value =>
    obtain ⟨hmem, hvalue, hunique⟩ := h
    refine ⟨fun id => ⟨?_, ?_⟩, hvalue⟩
    · rintro ⟨hid, hidOwns⟩
      refine hunique id ((hall id).1 hid) fun hnone => ?_
      rw [← howns, hnone] at hidOwns
      cases hidOwns
    · rintro rfl
      exact ⟨(hall id).2 hmem, by rw [← howns, hvalue]; rfl⟩
  | ambiguous first second => exact h.elim

/-- A search from `start` passes what it can reach in breadth-first order and nothing twice, and ends as the objects
say that own the name. It leaves nothing out unless it ends early, at a second object that owns the name. -/
structure Explores (heap : Heap) (roots : Roots) (owns : Object → Bool) (defines : Object → Option Value)
    (start : ObjectId) (walk : Walk) : Prop where
  nodup : walk.visited.Nodup
  sorted : walk.visited.Pairwise (heap.Precedes roots owns start)
  reaches : ∀ id ∈ walk.visited, heap.Reaches roots owns start id
  result_iff : ∀ result, walk.result = result ↔ heap.Verdict roots owns defines start result
  complete : (∀ first second, walk.result ≠ .ambiguous first second) →
    ∀ id, heap.Reaches roots owns start id → id ∈ walk.visited

theorem Ranked.reaches (h : heap.Ranked roots owns start known bound) (hid : id ∈ known) :
    heap.Reaches roots owns start id := by
  obtain ⟨route, hroute, -⟩ := h.foremost id hid
  exact hroute.reaches

theorem Ranked.of_append {rest : List ObjectId} (h : heap.Ranked roots owns start (known ++ rest) bound) :
    heap.Ranked roots owns start known bound :=
  ⟨fun id hid => h.foremost id (List.mem_append_left _ hid), (List.pairwise_append.1 h.sorted).1⟩

theorem Explores.of_ranked {walk : Walk} (hranked : heap.Ranked roots owns start walk.visited bound)
    (hverdict : heap.Verdict roots owns defines start walk.result)
    (hcomplete : (∀ first second, walk.result ≠ .ambiguous first second) →
      ∀ id, heap.Reaches roots owns start id → id ∈ walk.visited) :
    heap.Explores roots owns defines start walk where
  nodup := hranked.sorted.imp Precedes.ne
  sorted := hranked.sorted
  reaches _ hid := hranked.reaches hid
  result_iff result := by
    constructor
    · rintro rfl
      exact hverdict
    · exact hverdict.unique
  complete := hcomplete

theorem walk_explores (howns : ∀ id, (defines (heap.object id)).isSome = owns (heap.object id)) (start : ObjectId) :
    heap.Explores roots owns defines start (heap.walk roots start defines) := by
  have hstart : heap.Frontier roots owns start [] [start] := .initial
  have hnothing : heap.Tallies defines [] .missing := by simp [Tallies]
  rcases walkFrom_ends howns hstart hnothing with ⟨hf, ht⟩ | ⟨first, second, hresult, hconflict⟩
  · obtain ⟨bound, hranked, -⟩ := hf.ranked
    rw [List.reverse_reverse, List.append_nil] at hranked
    have hall (id : ObjectId) : heap.Reaches roots owns start id ↔
        id ∈ (heap.walk roots start defines).visited.reverse := by
      constructor
      · exact hf.mem_of_reaches
      · intro hid
        exact hranked.reaches (List.mem_reverse.1 hid)
    exact .of_ranked hranked (ht.verdict howns hall) fun _ id hid => List.mem_reverse.1 ((hall id).1 hid)
  · have hverdict := hconflict.firstTwo howns
    obtain ⟨⟨passed, queue, hvisited, hf, -⟩, -⟩ := hconflict
    obtain ⟨route, -, hranked⟩ := hf.ranked_head
    rw [← hvisited] at hranked
    refine .of_ranked hranked.of_append ?_ fun hunambiguous => absurd hresult (hunambiguous first second)
    rw [walk, hresult]
    exact hverdict

/-- Live objects are in different cells. -/
theorem length_le_of_isLive {ids : List ObjectId} (hnodup : ids.Nodup) (hlive : ∀ id ∈ ids, heap.isLive id = true) :
    ids.length ≤ heap.cells.size := by
  have hcell (id : ObjectId) (hid : id ∈ ids) : ∃ object, heap.cells[id.index]? = some ⟨id.generation, some object⟩ := by
    obtain ⟨object, hget⟩ := isLive_iff.1 (hlive id hid)
    exact ⟨object, get?_eq_some_iff.1 hget⟩
  have hinjective : ∀ first ∈ ids, ∀ second ∈ ids, first.index = second.index → first = second := by
    intro first hfirst second hsecond hindex
    obtain ⟨object, hobject⟩ := hcell first hfirst
    obtain ⟨object', hobject'⟩ := hcell second hsecond
    rw [hindex, hobject'] at hobject
    have hgeneration : second.generation = first.generation := (Cell.mk.inj (Option.some.inj hobject)).1
    cases first
    cases second
    cases hindex
    cases hgeneration
    rfl
  have hbelow : ids.map (·.index) ⊆ List.range heap.cells.size := by
    intro index hindex
    obtain ⟨id, hid, rfl⟩ := List.mem_map.1 hindex
    obtain ⟨object, hobject⟩ := hcell id hid
    exact List.mem_range.2 (Array.getElem?_eq_some_iff.1 hobject).1
  have hmapped : (ids.map (·.index)).Nodup := hnodup.map_on hinjective
  simpa using (List.subperm_of_subset hmapped hbelow).length_le

end Heap

/-! ## Sessions -/

/-- The two tables of an object in which a name can be. -/
inductive Table
  | slots
  | parents
deriving DecidableEq, Repr

namespace Table

def owns : Table → String → Object → Bool
  | slots, name, object => object.shape.slots.contains name
  | parents, name, object => object.shape.parents.contains name

def entry? : Table → String → Object → Option Value
  | slots, name, object => object.slot? name
  | parents, name, object => object.parent? name

theorem isSome_entry? {object : Object} (h : object.Packed) (table : Table) (name : String) :
    (table.entry? name object).isSome = table.owns name object := by
  have hstored {layout : Layout} {values : List Value} (h : layout.Stores values) :
      ((layout.index? name).bind (values[·]?)).isSome = layout.contains name := by
    unfold Layout.contains
    cases hindex : layout.index? name with
    | none => rfl
    | some index =>
      have hlt := h.lt (Layout.mem_of_index? hindex)
      simp [List.getElem?_eq_getElem hlt]
  cases table with
  | slots => exact hstored h.slots
  | parents => exact hstored h.parents

end Table

namespace Session

/-- In every session, whatever its objects refer to, the search for a name from a live object is finite, passes only
live objects, and does what a breadth-first search is to do. -/
theorem search_explores {plain : Prop} {w : Session} (hw : w.Reachable plain) {start : ObjectId}
    (hlive : w.heap.isLive start = true) (table : Table) (name : String) :
    let walk := w.heap.walk w.roots start (table.entry? name)
    w.heap.Explores w.roots (table.owns name) (table.entry? name) start walk ∧
      (∀ id ∈ walk.visited, w.heap.isLive id = true) ∧ walk.visited.length ≤ w.heap.cells.size := by
  have hpacked := hw.arises.packed.2.1
  have hexplores : w.heap.Explores w.roots (table.owns name) (table.entry? name) start
      (w.heap.walk w.roots start (table.entry? name)) :=
    Heap.walk_explores (fun id => table.isSome_entry? (hpacked.packed_object id) name) start
  have hvisited := hw.sound.heap.walk_isLive hlive (table.entry? name)
  exact ⟨hexplores, hvisited, Heap.length_le_of_isLive hexplores.nodup hvisited⟩

/-- A call that binds `x` and inherits `x`: its bindings come first, and what it inherits second. -/
theorem search_explores_rehearsal :
    ∃ (w : Session) (start first second : ObjectId), w.Reachable True ∧ w.heap.isLive start = true ∧
      (w.heap.walk w.roots start (Table.slots.entry? "x")).result = .ambiguous first second ∧
      w.heap.FirstTwo w.roots (Table.slots.owns "x") start first second := by
  have htrial : ((rehearsal inheritedTwice 14).any fun w => w.activations.any fun start =>
      w.heap.isLive start && match (w.heap.walk w.roots start (Table.slots.entry? "x")).result with
        | .ambiguous _ _ => true
        | _ => false) = true := by
    decide +kernel
  obtain ⟨w, hw, hactivations⟩ := (Option.any_eq_true _ _).1 htrial
  obtain ⟨start, -, hcheck⟩ := List.any_eq_true.1 hactivations
  obtain ⟨hlive, hcheck⟩ := Bool.and_eq_true_iff.1 hcheck
  have hreachable : w.Reachable True := reachable_of_rehearsal hw
  split at hcheck
  · rename_i first second hresult
    refine ⟨w, start, first, second, hreachable, hlive, hresult, ?_⟩
    exact ((search_explores hreachable hlive .slots "x").1.result_iff _).1 hresult
  · cases hcheck

end Session

end ProtoVm
