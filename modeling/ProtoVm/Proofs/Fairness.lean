import Mathlib.Data.List.Rotate
import ProtoVm.Proofs.History
import ProtoVm.Proofs.Independence
import ProtoVm.Proofs.Lifecycle

/-!
# Taking turns

The pool is a queue of numbers. Whoever is first goes to the end or leaves, others leave from where they are, and
whoever comes in comes in at the end under a new number. So of two processes that stay, each has one turn between two
turns of the other, and a turn is as many instructions as the quantum and the process allow.
-/

namespace ProtoVm

/-! ## The length of a turn -/

namespace Machine

variable {ctx : Context} {m : Machine} {total budget : Nat}

/-- The process ends with the last of `total` instructions. -/
def EndsIn (ctx : Context) (m : Machine) (total : Nat) : Prop :=
  ((advance ctx)^[total] m).process.isFinished = true ∧
    ∀ count < total, ((advance ctx)^[count] m).process.isFinished = false

theorem EndsIn.advance (h : m.EndsIn ctx (total + 1)) :
    m.process.isFinished = false ∧ (m.advance ctx).EndsIn ctx total := by
  refine ⟨h.2 0 (by omega), h.1, fun count hcount => ?_⟩
  exact h.2 (count + 1) (by omega)

/-- A turn stops at its budget or at the end of the process, whichever comes first. -/
theorem run_eq_iterate (h : m.EndsIn ctx total) (budget : Nat) :
    m.run ctx budget = (Machine.advance ctx)^[min budget total] m := by
  induction budget generalizing m total with
  | zero => simp [run]
  | succ budget ih =>
    cases total with
    | zero => exact run_of_isFinished _ h.1
    | succ total =>
      obtain ⟨hgoing, hrest⟩ := h.advance
      rw [run_succ _ hgoing, ih hrest, Nat.add_min_add_right, Function.iterate_succ_apply]

theorem exists_endsIn (h : (m.run ctx budget).process.isFinished = true) : ∃ total, m.EndsIn ctx total := by
  induction budget generalizing m with
  | zero => exact ⟨0, h, by simp⟩
  | succ budget ih =>
    cases hm : m.process.isFinished with
    | true => exact ⟨0, hm, by simp⟩
    | false =>
      rw [run_succ _ hm] at h
      obtain ⟨total, hend, hgoing⟩ := ih h
      refine ⟨total + 1, hend, fun count hcount => ?_⟩
      cases count with
      | zero => exact hm
      | succ count => exact hgoing count (by omega)

end Machine

namespace Scheduler

variable {s : Scheduler} {process : Process} {rest : List Process}

/-- The first process does `count` instructions and goes to the end of the queue. -/
def serve (s : Scheduler) (process : Process) (rest : List Process) (count : Nat) : Scheduler :=
  let m := (Machine.advance s.context)^[count] (s.machine process)
  { s with
    heap := m.heap
    pool := rest ++ [m.process]
    outcomes := s.outcomes.setIfInBounds m.process.id m.process.outcome
    journal := .turnEnded m.process.id (if m.process.isFinished then .finished else .preempted) :: m.journal }

theorem runOnce_eq_serve (hpool : s.pool = process :: rest) (hgoing : process.isFinished = false) {total : Nat}
    (hends : (s.machine process).EndsIn s.context total) {limit : Nat}
    (hlimit : s.config.quantum = 0 → total ≤ limit) :
    (s.runOnce limit).2 =
      s.serve process rest (if s.config.quantum = 0 then total else min s.config.quantum total) := by
  have hcount : min (s.budget limit) total =
      if s.config.quantum = 0 then total else min s.config.quantum total := by
    unfold budget
    split
    · rename_i hzero
      exact Nat.min_eq_right (hlimit hzero)
    · rfl
  rw [← hcount, serve, ← Machine.run_eq_iterate hends]
  simp only [runOnce, hpool, hgoing]
  rfl

end Scheduler

namespace Session

variable {plain : Prop} {w : Session} {action : Action} {actions : List Action} {process : Process}

theorem Reachable.endsIn (hw : w.Reachable plain) (hprocess : process ∈ w.scheduler.pool) :
    ∃ total, (w.scheduler.machine process).EndsIn w.scheduler.context total := by
  obtain ⟨size, hs⟩ := hw.sound.bounded
  obtain ⟨before, after, hpool⟩ := List.append_of_mem hprocess
  have hmachine : (w.scheduler.machine process).Sound (.bounded size w.copies) w.scheduler.context.roots
    ((before ++ after).flatMap (·.ownFrames)) := hs.machine (hpool ▸ List.perm_middle)
  exact Machine.exists_endsIn (Machine.run_eq_run hmachine (hs.tokened process hprocess) (Nat.le_refl _)
    (Nat.le_refl _)).1

/-! ## The queue -/

/-- The numbers of the processes in the pool, in the order of their turns. -/
def ids (w : Session) : List ProcessId := w.scheduler.pool.map (·.id)

/-- The process that comes into the pool. -/
def added? (w : Session) : Action → Option ProcessId
  | .add unit => w.units[unit]?.map fun body => (w.scheduler.addProcess body).1
  | _ => none

/-- The process that is taken from the pool. -/
def removed? (w : Session) : Action → Option ProcessId
  | .remove id => if (w.scheduler.removeProcess id).1 then some id else none
  | _ => none

/-- The process that is at the head of the pool when the pool is to run. -/
def turn? (w : Session) : Action → Option ProcessId
  | .run _ => w.ids.head?
  | _ => none

/-- The process that is found at the head of the pool when it has ended. -/
def retired? (w : Session) : Action → Option ProcessId
  | .run _ => (w.scheduler.pool.head?.filter (·.isFinished)).map (·.id)
  | _ => none

/-- What `event?` reports of each action of a history. -/
def log (event? : Session → Action → Option ProcessId) : Session → List Action → List ProcessId
  | _, [] => []
  | w, action :: rest => (event? w action).toList ++ log event? (w.after action) rest

theorem log_append (event? : Session → Action → Option ProcessId) (w : Session) (actions rest : List Action) :
    log event? w (actions ++ rest) = log event? w actions ++ log event? (w.afterAll actions) rest := by
  induction actions generalizing w with
  | nil => rfl
  | cons action actions ih => simp [log, ih, afterAll]

theorem Reachable.run_id (hw : w.Reachable plain) (hprocess : process ∈ w.scheduler.pool) (budget : Nat) :
    ((w.scheduler.machine process).run w.scheduler.context budget).process.id = process.id := by
  obtain ⟨others, hmachine⟩ := hw.machine_sound hprocess
  have hsound : (w.scheduler.machine process).Sound (w.policy plain) w.scheduler.context.roots others := hmachine
  exact (Machine.follows_run budget hsound).id_eq

/-- The queue after an action, by the numbers alone. -/
def queued (w : Session) : Action → List ProcessId
  | .add unit => w.ids ++ (w.added? (.add unit)).toList
  | .remove id => w.ids.erase id
  | .run limit => if (w.retired? (.run limit)).isSome then w.ids.tail else w.ids.rotate 1
  | _ => w.ids

theorem ids_remove (w : Session) (id : ProcessId) : (w.after (.remove id)).ids = w.ids.erase id := by
  have hmap (pool : List Process) : (pool.eraseP (·.id == id)).map (·.id) = (pool.map (·.id)).erase id := by
    induction pool with
    | nil => rfl
    | cons process pool ih =>
      by_cases h : process.id = id
      · simp [h]
      · simp [h, ih]
  simp only [after, Scheduler.removeProcess, ids]
  split
  · exact hmap w.scheduler.pool
  · rename_i hnone
    have hnot : id ∉ w.scheduler.pool.map (·.id) := by
      intro hid
      obtain ⟨process, hprocess, rfl⟩ := List.mem_map.1 hid
      exact hnone (List.any_eq_true.2 ⟨process, hprocess, by simp⟩)
    rw [List.erase_of_not_mem hnot]

theorem ids_run (hw : w.Reachable plain) (limit : Nat) : (w.after (.run limit)).ids = w.queued (.run limit) := by
  cases hpool : w.scheduler.pool with
  | nil => simp [after, queued, retired?, ids, Scheduler.runOnce_of_pool_eq_nil hpool, hpool]
  | cons process rest =>
    simp only [after, queued, retired?, ids]
    cases hdone : process.isFinished with
    | true => simp [Scheduler.runOnce_of_isFinished hpool hdone, hpool, hdone]
    | false =>
      obtain ⟨journal, hturn⟩ := Scheduler.runOnce_of_going limit hpool hdone
      have hid := hw.run_id (hpool ▸ List.mem_cons_self : process ∈ w.scheduler.pool) (w.scheduler.budget limit)
      simp [hturn, hid, hpool, hdone]

theorem ids_tick (hw : w.Reachable plain) (index : Nat) : (w.after (.tick index)).ids = w.ids := by
  simp only [after, ids, Scheduler.tick]
  split
  · rename_i process hprocess
    split
    · rfl
    · rename_i hgoing
      have hid := hw.run_id (List.mem_of_getElem? hprocess) 1
      rw [Machine.run_succ _ (Bool.eq_false_iff.2 hgoing)] at hid
      have hid' : (Machine.advance w.scheduler.context ⟨w.scheduler.heap, process, w.scheduler.journal⟩).process.id =
        process.id := hid
      obtain ⟨hindex, rfl⟩ := List.getElem?_eq_some_iff.1 hprocess
      rw [List.map_set, hid', ← List.map_set, List.set_getElem_self]
  · rfl

/-- An action moves the queue and does nothing else to it. -/
theorem ids_after (hw : w.Reachable plain) (action : Action) : (w.after action).ids = w.queued action := by
  cases action with
  | request r =>
    simp only [after, perform]
    split <;> rfl
  | add unit =>
    simp only [after, queued, added?]
    cases hunit : w.units[unit]? with
    | none => simp
    | some body => simp [ids, Scheduler.addProcess, Process.start]
  | remove id => exact ids_remove w id
  | run limit => exact ids_run hw limit
  | tick index => exact ids_tick hw index
  | learn | copy | load | note => rfl

theorem nodup_ids (hw : w.Reachable plain) : w.ids.Nodup := hw.registered.nodup

theorem lt_of_mem_ids (hw : w.Reachable plain) {id : ProcessId} (hid : id ∈ w.ids) :
    id < w.scheduler.outcomes.size := by
  obtain ⟨process, hprocess, rfl⟩ := List.mem_map.1 hid
  exact (Array.getElem?_eq_some_iff.1 (hw.registered.outcome_eq process hprocess)).1

/-- Numbers are given out one after the other. -/
theorem size_after (w : Session) (action : Action) : (w.after action).scheduler.outcomes.size =
    w.scheduler.outcomes.size + (w.added? action).toList.length := by
  have hturns {s : Scheduler} (h : w.scheduler.Turns s) : s.outcomes.size = w.scheduler.outcomes.size := by
    cases h <;> simp
  cases action with
  | request r =>
    simp only [after, perform]
    split <;> rfl
  | add unit =>
    simp only [after, added?]
    cases hunit : w.units[unit]? with
    | none => rfl
    | some body => simp [Scheduler.addProcess]
  | remove id => exact hturns (w.scheduler.turns_removeProcess id)
  | run limit => exact hturns (w.scheduler.turns_runOnce limit)
  | tick index => exact hturns (w.scheduler.turns_tick index)
  | learn | copy | load | note => rfl

theorem added?_eq_some {id : ProcessId} (h : w.added? action = some id) : id = w.scheduler.outcomes.size := by
  cases action with
  | add unit =>
    obtain ⟨body, -, rfl⟩ := Option.map_eq_some_iff.1 h
    rfl
  | _ => cases h

theorem ids_of_turn? {id : ProcessId} (h : w.turn? action = some id) : ∃ rest, w.ids = id :: rest := by
  cases action with
  | run limit => exact List.head?_eq_some_iff.1 h
  | _ => cases h

theorem turn?_of_retired? {id : ProcessId} (h : w.retired? action = some id) : w.turn? action = some id := by
  cases action with
  | run limit =>
    obtain ⟨process, hhead, rfl⟩ := Option.map_eq_some_iff.1 h
    rw [turn?, ids, List.head?_map, (Option.filter_eq_some_iff.1 hhead).1, Option.map_some]
  | _ => cases h

theorem removed?_remove {id other : ProcessId} :
    w.removed? (.remove other) = some id ↔ id = other ∧ id ∈ w.ids := by
  simp only [removed?, Scheduler.removeProcess, ids, List.mem_map]
  by_cases hany : w.scheduler.pool.any (·.id == other) = true
  · simp only [if_pos hany, if_true, Option.some.injEq]
    obtain ⟨process, hprocess, hid⟩ := List.any_eq_true.1 hany
    constructor
    · rintro rfl
      exact ⟨rfl, process, hprocess, by simpa using hid⟩
    · rintro ⟨rfl, -⟩
      rfl
  · simp only [if_neg hany, Bool.false_eq_true, if_false, reduceCtorEq, false_iff]
    rintro ⟨rfl, process, hprocess, rfl⟩
    exact hany (List.any_eq_true.2 ⟨process, hprocess, by simp⟩)

/-- Who is in the queue after an action was in it before or has just come in, and neither was taken out nor has
retired. -/
theorem mem_ids_after (hw : w.Reachable plain) (action : Action) (id : ProcessId) :
    id ∈ (w.after action).ids ↔ (id ∈ w.ids ∨ w.added? action = some id) ∧ w.removed? action ≠ some id ∧
      w.retired? action ≠ some id := by
  have hnodup := nodup_ids hw
  rw [ids_after hw]
  cases action with
  | add unit => simp [queued, removed?, retired?]
  | remove other =>
    simp only [queued, hnodup.mem_erase_iff, Ne, removed?_remove, added?, retired?]
    simp only [reduceCtorEq, or_false, not_false_eq_true, and_true, not_and]
    constructor
    · rintro ⟨hne, hid⟩
      exact ⟨hid, fun heq => absurd heq hne⟩
    · rintro ⟨hid, hkept⟩
      exact ⟨fun heq => hkept heq hid, hid⟩
  | run limit =>
    cases hretired : w.retired? (.run limit) with
    | none => simp [queued, hretired, added?, removed?]
    | some other =>
      obtain ⟨rest, hids⟩ := ids_of_turn? (turn?_of_retired? hretired)
      rw [hids, List.nodup_cons] at hnodup
      simp only [queued, hretired, hids, added?, removed?, Option.isSome_some, if_true, List.tail_cons, List.mem_cons,
        Ne, Option.some.injEq, reduceCtorEq, or_false, not_false_eq_true, true_and]
      constructor
      · intro hid
        exact ⟨.inr hid, fun heq => hnodup.1 (heq ▸ hid)⟩
      · rintro ⟨rfl | hid, hne⟩
        · exact absurd rfl hne
        · exact hid
  | _ => simp [queued, added?, removed?, retired?]

/-- The queue, as the history of the session accounts for it. -/
structure Accounts (w : Session) (added removed retired : List ProcessId) : Prop where
  mem_iff : ∀ id, id ∈ w.ids ↔ id ∈ added ∧ id ∉ removed ∧ id ∉ retired
  lt : ∀ id ∈ added, id < w.scheduler.outcomes.size
  gone : ∀ id, id ∈ removed ∨ id ∈ retired → id ∈ added

theorem Accounts.after {added removed retired : List ProcessId} (h : w.Accounts added removed retired)
    (hw : w.Reachable plain) (action : Action) :
    (w.after action).Accounts (added ++ (w.added? action).toList) (removed ++ (w.removed? action).toList)
      (retired ++ (w.retired? action).toList) := by
  have hremoved {id : ProcessId} (hid : w.removed? action = some id) : id ∈ w.ids := by
    cases action with
    | remove other => exact (removed?_remove.1 hid).2
    | _ => cases hid
  have hretired {id : ProcessId} (hid : w.retired? action = some id) : id ∈ w.ids := by
    obtain ⟨rest, hids⟩ := ids_of_turn? (turn?_of_retired? hid)
    exact hids ▸ List.mem_cons_self
  constructor
  · intro id
    simp only [mem_ids_after hw, h.mem_iff, List.mem_append, Option.mem_toList, not_or]
    constructor
    · rintro ⟨⟨hadded, hnot, hnot'⟩ | hnew, hne, hne'⟩
      · exact ⟨.inl hadded, ⟨hnot, hne⟩, hnot', hne'⟩
      · -- a new number is greater than all that have gone
        have hfresh (hid : id ∈ removed ∨ id ∈ retired) : False := by
          have hlt := h.lt id (h.gone id hid)
          rw [added?_eq_some hnew] at hlt
          exact Nat.lt_irrefl _ hlt
        exact ⟨.inr hnew, ⟨fun hid => hfresh (.inl hid), hne⟩, fun hid => hfresh (.inr hid), hne'⟩
    · rintro ⟨hadded | hnew, ⟨hnot, hne⟩, hnot', hne'⟩
      · exact ⟨.inl ⟨hadded, hnot, hnot'⟩, hne, hne'⟩
      · exact ⟨.inr hnew, hne, hne'⟩
  · intro id hid
    rw [size_after]
    rcases List.mem_append.1 hid with hid | hid
    · exact Nat.lt_add_right _ (h.lt id hid)
    · have hnew : w.added? action = some id := by simpa using hid
      rw [hnew, ← added?_eq_some hnew]
      exact Nat.lt_succ_self id
  · intro id hid
    simp only [List.mem_append, Option.mem_toList] at hid
    apply List.mem_append_left
    rcases hid with (hid | hid) | hid | hid
    · exact h.gone id (.inl hid)
    · exact ((h.mem_iff id).1 (hremoved hid)).1
    · exact h.gone id (.inr hid)
    · exact ((h.mem_iff id).1 (hretired hid)).1

/-- The queue holds those who were added and have not gone. -/
theorem accounts_afterAll (hw : w.Reachable plain) (hids : w.ids = []) (hactions : w.PermitsAll plain actions) :
    (w.afterAll actions).Accounts (log added? w actions) (log removed? w actions) (log retired? w actions) := by
  induction actions using List.reverseRecOn with
  | nil => exact ⟨by simp [log, afterAll, hids], by simp [log], by simp [log]⟩
  | append_singleton actions action ih =>
    obtain ⟨hfront, -⟩ := permitsAll_append.1 hactions
    have hafter := (ih hfront).after (hfront.reachable hw) action
    simpa [log_append, log, afterAll] using hafter

/-! ## Order -/

variable {first second : ProcessId} {middle : List Action}

/-- Of two that stay, the one in front stays in front unless it has a turn. -/
theorem sublist_ids_after (hw : w.Reachable plain) (h : [first, second].Sublist w.ids)
    (hfirst : first ∈ (w.after action).ids) (hsecond : second ∈ (w.after action).ids)
    (hturn : w.turn? action ≠ some first) : [first, second].Sublist (w.after action).ids := by
  rw [ids_after hw] at hfirst hsecond ⊢
  cases action with
  | add unit => exact h.trans (List.sublist_append_left _ _)
  | remove id =>
    simp only [queued, (nodup_ids hw).mem_erase_iff] at hfirst hsecond
    have herase := h.erase id
    rwa [List.erase_of_not_mem (by simp [Ne.symm hfirst.1, Ne.symm hsecond.1])] at herase
  | run limit =>
    obtain ⟨head, rest, hids⟩ := List.exists_cons_of_ne_nil (List.ne_nil_of_mem (h.subset List.mem_cons_self))
    have hne : head ≠ first := by
      rintro rfl
      exact hturn (by rw [turn?, hids, List.head?_cons])
    have hrest : [first, second].Sublist rest := by
      rw [hids] at h
      cases h with
      | cons _ h => exact h
      | cons_cons _ h => exact absurd rfl hne
    simp only [queued, hids]
    split
    · exact hrest
    · simpa using hrest.trans (List.sublist_append_left rest [head])
  | _ => exact h

/-- Who has a turn and stays comes behind all others. -/
theorem sublist_ids_after_turn (hw : w.Reachable plain) (hne : second ≠ first)
    (hturn : w.turn? action = some first) (hfirst : first ∈ (w.after action).ids)
    (hsecond : second ∈ (w.after action).ids) : [second, first].Sublist (w.after action).ids := by
  obtain ⟨rest, hids⟩ := ids_of_turn? hturn
  have hnodup := nodup_ids hw
  rw [hids, List.nodup_cons] at hnodup
  rw [ids_after hw] at hfirst hsecond ⊢
  cases action with
  | run limit =>
    simp only [queued, hids] at hfirst hsecond ⊢
    split at hfirst
    · exact absurd hfirst hnodup.1
    · rename_i hstays
      rw [if_neg hstays] at hsecond ⊢
      have hrest : second ∈ rest := by simpa [hne] using hsecond
      simpa using (List.singleton_sublist.2 hrest).append (List.Sublist.refl [first])
  | _ => cases hturn

/-- Numbers do not come back. -/
theorem not_mem_ids_afterAll {id : ProcessId} (hw : w.Reachable plain) (hactions : w.PermitsAll plain actions)
    (hlt : id < w.scheduler.outcomes.size) (hid : id ∉ w.ids) : id ∉ (w.afterAll actions).ids := by
  induction actions generalizing w with
  | nil => exact hid
  | cons action actions ih =>
    refine ih (hw.step hactions.1.step) hactions.2 ?_ ?_
    · rw [size_after]
      exact Nat.lt_add_right _ hlt
    · intro hmem
      rcases ((mem_ids_after hw action id).1 hmem).1 with hold | hnew
      · exact hid hold
      · exact Nat.ne_of_lt hlt (added?_eq_some hnew)

/-- Who is in the queue now and later was in it all the time. -/
theorem mem_ids_after_of_later {id : ProcessId} (hw : w.Reachable plain)
    (hactions : w.PermitsAll plain (action :: actions)) (hid : id ∈ w.ids)
    (hlater : id ∈ ((w.after action).afterAll actions).ids) : id ∈ (w.after action).ids := by
  by_contra hgone
  refine not_mem_ids_afterAll (hw.step hactions.1.step) hactions.2 ?_ hgone hlater
  rw [size_after]
  exact Nat.lt_add_right _ (lt_of_mem_ids hw hid)

/-- Nobody is in front of the head of the queue. -/
theorem not_sublist_of_head (hw : w.Reachable plain) {rest : List ProcessId} (hids : w.ids = second :: rest)
    (hne : first ≠ second) : ¬[first, second].Sublist w.ids := by
  intro h
  have hnodup := nodup_ids hw
  rw [hids] at h hnodup
  cases h with
  | cons _ h => exact (List.nodup_cons.1 hnodup).1 (h.subset (by simp))
  | cons_cons _ h => exact hne rfl

/-- While `second` waits for its next turn, `first` has one turn if it is in front of `second` and none if it is
behind. -/
theorem count_turns (hw : w.Reachable plain) (hmiddle : w.PermitsAll plain middle) (hne : first ≠ second)
    (hstays : ∀ front, front <+: middle → first ∈ (w.afterAll front).ids)
    (hquiet : second ∉ log turn? w middle) (hnext : (w.afterAll middle).ids.head? = some second) :
    ([first, second].Sublist w.ids → (log turn? w middle).count first = 1) ∧
      ([second, first].Sublist w.ids → (log turn? w middle).count first = 0) := by
  induction middle generalizing w with
  | nil =>
    obtain ⟨rest, hids⟩ := List.head?_eq_some_iff.1 hnext
    exact ⟨fun h => absurd h (not_sublist_of_head hw hids hne), fun _ => rfl⟩
  | cons action middle ih =>
    have hw' := hw.step hmiddle.1.step
    simp only [log, List.mem_append, Option.mem_toList, not_or] at hquiet
    have hfirst : first ∈ (w.after action).ids := hstays [action] (by simp)
    have hsecond (h : second ∈ w.ids) : second ∈ (w.after action).ids :=
      mem_ids_after_of_later hw hmiddle h (List.mem_of_mem_head? hnext)
    obtain ⟨hbefore, hbehind⟩ := ih hw' hmiddle.2
      (fun front hfront => hstays (action :: front) (by simpa using hfront)) hquiet.2 hnext
    simp only [log, List.count_append]
    constructor
    · intro h
      have hstay := hsecond (h.subset (by simp))
      by_cases hturn : w.turn? action = some first
      · rw [hturn, hbehind (sublist_ids_after_turn hw hne.symm hturn hfirst hstay)]
        simp
      · rw [hbefore (sublist_ids_after hw h hfirst hstay hturn), List.count_eq_zero.2 (by simpa using hturn)]
    · intro h
      have hstay := hsecond (h.subset (by simp))
      have hturn : w.turn? action ≠ some first := by
        intro hturn
        obtain ⟨rest, hids⟩ := ids_of_turn? hturn
        exact not_sublist_of_head hw hids hne.symm h
      rw [hbehind (sublist_ids_after hw h hstay hfirst hquiet.1), List.count_eq_zero.2 (by simpa using hturn)]

/-- Between two turns of one process every other process that stays has one turn. -/
theorem count_turns_between (hw : w.Reachable plain) {limit : Nat} (hnow : w.ids.head? = some second)
    (hmiddle : (w.after (.run limit)).PermitsAll plain middle) (hne : first ≠ second)
    (hstays : ∀ front, front <+: middle → first ∈ ((w.after (.run limit)).afterAll front).ids)
    (hquiet : second ∉ log turn? (w.after (.run limit)) middle)
    (hnext : ((w.after (.run limit)).afterAll middle).ids.head? = some second) :
    (log turn? (w.after (.run limit)) middle).count first = 1 := by
  have hrun : w.Permits plain (.run limit) := trivial
  have hw' : (w.after (.run limit)).Reachable plain := hw.step hrun.step
  have hsecond := mem_ids_after_of_later hw ⟨hrun, hmiddle⟩ (List.mem_of_mem_head? hnow) (List.mem_of_mem_head? hnext)
  have hturn : w.turn? (.run limit) = some second := hnow
  have hfirst : first ∈ (w.after (.run limit)).ids := hstays [] List.nil_prefix
  exact (count_turns hw' hmiddle hne hstays hquiet hnext).1 (sublist_ids_after_turn hw hne hturn hsecond hfirst)

/-- A process that has ended waits as it is until it is taken out or at the head. -/
theorem mem_pool_after (hdone : process.isFinished = true) (hprocess : process ∈ w.scheduler.pool) (action : Action) :
    process ∈ (w.after action).scheduler.pool ∨ w.removed? action = some process.id ∨
      w.retired? action = some process.id := by
  cases action with
  | request r =>
    refine .inl ?_
    simp only [after, perform]
    split <;> exact hprocess
  | add unit =>
    refine .inl ?_
    simp only [after]
    split
    · exact List.mem_append_left _ hprocess
    · exact hprocess
  | remove id =>
    by_cases hid : process.id = id
    · exact .inr (.inl (removed?_remove.2 ⟨hid, List.mem_map_of_mem hprocess⟩))
    · refine .inl ?_
      simp only [after, Scheduler.removeProcess]
      split
      · exact (List.mem_eraseP_of_neg (by simpa using hid)).2 hprocess
      · exact hprocess
  | run limit =>
    obtain ⟨head, rest, hpool⟩ := List.exists_cons_of_ne_nil (List.ne_nil_of_mem hprocess)
    rw [hpool] at hprocess
    rcases List.mem_cons.1 hprocess with rfl | hrest
    · exact .inr (.inr (by simp [retired?, hpool, hdone]))
    · refine .inl ?_
      simp only [after]
      cases hhead : head.isFinished with
      | true =>
        rw [Scheduler.runOnce_of_isFinished hpool hhead]
        exact hrest
      | false =>
        obtain ⟨journal, hturn⟩ := Scheduler.runOnce_of_going limit hpool hhead
        rw [hturn]
        exact List.mem_append_left _ hrest
  | tick index =>
    refine .inl ?_
    simp only [after, Scheduler.tick]
    split
    · rename_i other hother
      split
      · exact hprocess
      · rename_i hgoing
        obtain ⟨place, hplace⟩ := List.mem_iff_getElem?.1 hprocess
        refine List.mem_iff_getElem?.2 ⟨place, ?_⟩
        have hne : index ≠ place := by
          rintro rfl
          rw [hother] at hplace
          cases hplace
          exact hgoing hdone
        rw [List.getElem?_set_ne hne]
        exact hplace
    · exact hprocess
  | learn | copy | load | note => exact .inl hprocess

/-- The pool loses nobody and is fair, whatever was done since the session began. The numbers in it are different, and
they are those that were added and neither taken out nor retired. Whoever is at the head when the pool runs leaves if
it has ended, and otherwise does as many instructions as the quantum and its end allow, while nobody else does any. A
process that has ended stays as it is until it is at the head or taken out. Between two turns of one process every
other that stays has one. -/
theorem fairness {config : Config} {maxObjects : Nat} {s : Scheduler} (hs : Scheduler.create config maxObjects = .ok s)
    (hactions : PermitsAll plain { scheduler := s } actions) :
    let new : Session := { scheduler := s }
    let w := new.afterAll actions
    w.ids.Nodup ∧
    (∀ id, id ∈ w.ids ↔
      id ∈ log added? new actions ∧ id ∉ log removed? new actions ∧ id ∉ log retired? new actions) ∧
    (∀ process rest, w.scheduler.pool = process :: rest → process.isFinished = true → ∀ limit,
      (w.scheduler.runOnce limit).2 =
        { w.scheduler with pool := rest, journal := .retired process.id :: w.scheduler.journal }) ∧
    (∀ process rest, w.scheduler.pool = process :: rest → process.isFinished = false →
      ∃ total, (w.scheduler.machine process).EndsIn w.scheduler.context total ∧
        ∀ limit, (w.scheduler.config.quantum = 0 → total ≤ limit) → (w.scheduler.runOnce limit).2 =
          w.scheduler.serve process rest
            (if w.scheduler.config.quantum = 0 then total else min w.scheduler.config.quantum total)) ∧
    (∀ process ∈ w.scheduler.pool, process.isFinished = true → ∀ action,
      process ∈ (w.after action).scheduler.pool ∨ w.removed? action = some process.id ∨
        w.retired? action = some process.id) ∧
    ∀ limit middle first second, (w.after (.run limit)).PermitsAll plain middle → first ≠ second →
      w.ids.head? = some second → second ∉ log turn? (w.after (.run limit)) middle →
      ((w.after (.run limit)).afterAll middle).ids.head? = some second →
      (∀ front, front <+: middle → first ∈ ((w.after (.run limit)).afterAll front).ids) →
      (log turn? (w.after (.run limit)) middle).count first = 1 := by
  intro new w
  have hnew : new.Reachable plain := .start hs
  have hids : new.ids = [] := by
    unfold Scheduler.create at hs
    split at hs
    · cases hs
      rfl
    · cases hs
  have hw : w.Reachable plain := hactions.reachable hnew
  refine ⟨nodup_ids hw, (accounts_afterAll hnew hids hactions).mem_iff, ?_, ?_, ?_, ?_⟩
  · intro process rest hpool hdone limit
    exact Scheduler.runOnce_of_isFinished hpool hdone
  · intro process rest hpool hgoing
    obtain ⟨total, hends⟩ := hw.endsIn (hpool ▸ List.mem_cons_self)
    exact ⟨total, hends, fun limit hlimit => Scheduler.runOnce_eq_serve hpool hgoing hends hlimit⟩
  · intro process hprocess hdone action
    exact mem_pool_after hdone hprocess action
  · intro limit middle first second hmiddle hne hnow hquiet hnext hstays
    exact count_turns_between hw hnow hmiddle hne hstays hquiet hnext

/-- Three processes take turns of one instruction. Between two turns of the first the third is taken out and a fourth
comes in, and the second has its turn. -/
theorem fairness_crowd : ∃ (s : Scheduler) (code : Code),
    Scheduler.create { quantum := 1 } 100 = .ok s ∧ Code.compile Demo.add.lines = .ok code ∧
    let w : Session := afterAll { scheduler := s } [.load code, .add 0, .add 0, .add 0]
    let middle : List Action := [.remove 2, .add 0, .run 0]
    PermitsAll True { scheduler := s } [.load code, .add 0, .add 0, .add 0] ∧
    (w.after (.run 0)).PermitsAll True middle ∧ w.ids = [0, 1, 2] ∧ w.ids.head? = some 0 ∧
    ((w.after (.run 0)).afterAll middle).ids = [0, 3, 1] ∧
    (log turn? (w.after (.run 0)) middle).count 1 = 1 := by
  have hcheck : ((Scheduler.create { quantum := 1 } 100).toOption.any fun s =>
      (Code.compile Demo.add.lines).toOption.any fun code =>
        let w : Session := afterAll { scheduler := s } [.load code, .add 0, .add 0, .add 0]
        let middle : List Action := [.remove 2, .add 0, .run 0]
        grantsAll { scheduler := s } [.load code, .add 0, .add 0, .add 0] && (w.after (.run 0)).grantsAll middle &&
          w.ids == [0, 1, 2] && ((w.after (.run 0)).afterAll middle).ids == [0, 3, 1] &&
          0 ∉ log turn? (w.after (.run 0)) middle &&
          middle.inits.all fun front => 1 ∈ ((w.after (.run 0)).afterAll front).ids) = true := by
    decide +kernel
  cases hs : Scheduler.create { quantum := 1 } 100 with
  | error fault =>
    rw [hs] at hcheck
    cases hcheck
  | ok s =>
    cases hcode : Code.compile Demo.add.lines with
    | error fault =>
      rw [hs, hcode] at hcheck
      cases hcheck
    | ok code =>
      rw [hs, hcode] at hcheck
      simp only [Except.toOption, Option.any_some, Bool.and_eq_true, beq_iff_eq, decide_eq_true_eq, List.all_eq_true,
        List.mem_inits] at hcheck
      obtain ⟨⟨⟨⟨⟨hactions, hmiddle⟩, hids⟩, hnext⟩, hquiet⟩, hstays⟩ := hcheck
      have hactions := @permitsAll_of_grantsAll True _ _ hactions
      have hmiddle := @permitsAll_of_grantsAll True _ _ hmiddle
      obtain ⟨-, -, -, -, -, hfair⟩ := fairness hs hactions
      refine ⟨s, code, rfl, rfl, hactions, hmiddle, hids, by rw [hids]; rfl, hnext, ?_⟩
      exact hfair 0 _ 1 0 hmiddle (by decide) (by rw [hids]; rfl) hquiet (by rw [hnext]; rfl) hstays

end Session

end ProtoVm
