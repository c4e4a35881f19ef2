import ProtoVm.Proofs.Fairness
import ProtoVm.Proofs.Journal

/-!
# Preemption

A run that is cut anywhere and taken up again is the run itself: nothing but the machine goes from one turn to the
next. A process that is alone in its pool therefore ends with one heap and one outcome, whatever the quantum is.
-/

namespace ProtoVm

namespace Machine

variable {ctx : Context} {m k last : Machine} {total count budget : Nat}

/-! ## Runs in pieces -/

/-- The machine comes to the end of its process, however many instructions that takes. -/
inductive Completes (ctx : Context) : Machine → Machine → Prop
  | ended {m : Machine} (h : m.process.isFinished = true) : Completes ctx m m
  | next {m last : Machine} (hgoing : m.process.isFinished = false) (h : Completes ctx (m.advance ctx) last) :
      Completes ctx m last

theorem run_add (ctx : Context) (m : Machine) (first second : Nat) :
    m.run ctx (first + second) = (m.run ctx first).run ctx second := by
  induction first generalizing m with
  | zero => rw [Nat.zero_add, run]
  | succ first ih =>
    cases hm : m.process.isFinished with
    | true => rw [run_of_isFinished _ hm, run_of_isFinished _ hm, run_of_isFinished _ hm]
    | false => rw [Nat.succ_add, run_succ _ hm, run_succ _ hm, ih]

theorem foldl_run (ctx : Context) (m : Machine) (budgets : List Nat) :
    budgets.foldl (fun m budget => m.run ctx budget) m = m.run ctx budgets.sum := by
  induction budgets generalizing m with
  | nil => rfl
  | cons budget budgets ih => rw [List.foldl_cons, ih, List.sum_cons, run_add]

theorem completes_run (h : (m.run ctx budget).process.isFinished = true) : m.Completes ctx (m.run ctx budget) := by
  induction budget generalizing m with
  | zero => exact .ended h
  | succ budget ih =>
    cases hm : m.process.isFinished with
    | true =>
      rw [run_of_isFinished _ hm]
      exact .ended hm
    | false =>
      rw [run_succ _ hm] at h ⊢
      exact .next hm (ih h)

theorem Completes.unique {other : Machine} (h : m.Completes ctx last) (h' : m.Completes ctx other) : last = other := by
  induction h with
  | ended hm =>
    cases h' with
    | ended => rfl
    | next hgoing => exact absurd (hm.symm.trans hgoing) nofun
  | next hgoing h ih =>
    cases h' with
    | ended hm => exact absurd (hm.symm.trans hgoing) nofun
    | next hgoing' h' => exact ih h'

/-! ## The end of a process -/

theorem EndsIn.completes (h : m.EndsIn ctx total) : m.Completes ctx ((Machine.advance ctx)^[total] m) := by
  have hrun := run_eq_iterate h total
  rw [Nat.min_self] at hrun
  rw [← hrun]
  exact completes_run (hrun ▸ h.1)

theorem EndsIn.iterate (h : m.EndsIn ctx total) (hle : count ≤ total) :
    ((Machine.advance ctx)^[count] m).EndsIn ctx (total - count) := by
  refine ⟨?_, fun done hdone => ?_⟩
  · rw [← Function.iterate_add_apply, Nat.sub_add_cancel hle]
    exact h.1
  · rw [← Function.iterate_add_apply]
    exact h.2 _ (by omega)

theorem EndsIn.alike (h : m.EndsIn ctx total) (hk : m.Alike k) : k.EndsIn ctx total :=
  ⟨(hk.iterate ctx total).process ▸ h.1, fun done hdone => (hk.iterate ctx done).process ▸ h.2 done hdone⟩

end Machine

namespace Scheduler

variable {s : Scheduler} {process : Process} {total : Nat}

theorem setIfInBounds_of_getElem? {α : Type} {xs : Array α} {i : Nat} {x : α} (h : xs[i]? = some x) :
    xs.setIfInBounds i x = xs := by
  rw [Array.getElem?_eq_some_iff] at h
  obtain ⟨hlt, rfl⟩ := h
  rw [Array.setIfInBounds, dif_pos hlt, Array.set_getElem_self]

/-- The next turn of the process goes on from the machine that the last one left. -/
theorem alike_serve (s : Scheduler) (process : Process) (count : Nat) :
    ((Machine.advance s.context)^[count] (s.machine process)).Alike
      ((s.serve process [] count).machine ((Machine.advance s.context)^[count] (s.machine process)).process) :=
  ⟨rfl, rfl⟩

theorem alike_iterate_serve (s : Scheduler) (process : Process) {count : Nat} (hle : count ≤ total) :
    ((Machine.advance s.context)^[total] (s.machine process)).Alike
      ((Machine.advance s.context)^[total - count]
        ((s.serve process [] count).machine ((Machine.advance s.context)^[count] (s.machine process)).process)) := by
  have hrest := (alike_serve s process count).iterate s.context (total - count)
  rwa [← Function.iterate_add_apply, Nat.sub_add_cancel hle] at hrest

/-- A process that is alone in the pool and has this many instructions before it. -/
structure Lone (s : Scheduler) (process : Process) (total : Nat) : Prop where
  pool : s.pool = [process]
  recorded : s.outcomes[process.id]? = some process.outcome
  ends : (s.machine process).EndsIn s.context total
  id_eq (count : Nat) : count ≤ total →
    ((Machine.advance s.context)^[count] (s.machine process)).process.id = process.id

namespace Lone

variable {count : Nat}

theorem pos_iff (h : s.Lone process total) : 0 < total ↔ process.isFinished = false := by
  constructor
  · exact fun hpos => h.ends.2 0 hpos
  · intro hgoing
    by_contra hzero
    obtain rfl : total = 0 := by omega
    exact absurd (hgoing.symm.trans h.ends.1) nofun

/-- After a turn it is alone with what it has left. -/
theorem serve (h : s.Lone process total) (hle : count ≤ total) :
    (s.serve process [] count).Lone ((Machine.advance s.context)^[count] (s.machine process)).process
      (total - count) := by
  set m := (Machine.advance s.context)^[count] (s.machine process) with hm
  have hserved : m.Alike ((s.serve process [] count).machine m.process) := alike_serve s process count
  have hid : m.process.id = process.id := h.id_eq count hle
  refine ⟨rfl, ?_, (h.ends.iterate hle).alike hserved, fun done hdone => ?_⟩
  · have hlt : process.id < s.outcomes.size := (Array.getElem?_eq_some_iff.1 h.recorded).1
    show (s.outcomes.setIfInBounds m.process.id m.process.outcome)[m.process.id]? = _
    simp [hid, hlt]
  · show ((Machine.advance s.context)^[done] ((s.serve process [] count).machine m.process)).process.id = m.process.id
    rw [← (hserved.iterate s.context done).process, hm, ← Function.iterate_add_apply, ← hm, hid]
    exact h.id_eq _ (by omega)

/-- However long its turns are, the process does its instructions one after the other. -/
theorem runTurns (h : s.Lone process total) {limit turns : Nat} (hlimit : total ≤ limit) (hturns : total < turns) :
    let last := (Machine.advance s.context)^[total] (s.machine process)
    (s.runTurns limit turns).pool = [] ∧ (s.runTurns limit turns).heap = last.heap ∧
      (s.runTurns limit turns).outcomes = s.outcomes.setIfInBounds process.id last.process.outcome := by
  induction turns generalizing s process total with
  | zero => omega
  | succ turns ih =>
    rw [runTurns_cons h.pool]
    cases hgoing : process.isFinished with
    | true =>
      obtain rfl : total = 0 := by
        by_contra hne
        exact absurd (hgoing.symm.trans (h.pos_iff.1 (Nat.pos_of_ne_zero hne))) nofun
      rw [runOnce_of_isFinished h.pool hgoing, runTurns_of_pool_eq_nil rfl]
      exact ⟨rfl, rfl, (setIfInBounds_of_getElem? h.recorded).symm⟩
    | false =>
      have hpos := h.pos_iff.2 hgoing
      rw [runOnce_eq_serve h.pool hgoing h.ends fun _ => hlimit]
      generalize hcount : (if s.config.quantum = 0 then total else min s.config.quantum total) = count
      obtain ⟨hone, hle⟩ : 0 < count ∧ count ≤ total := by
        split at hcount <;> omega
      obtain ⟨hempty, hheap, houtcomes⟩ := ih (h.serve hle) (by omega) (by omega)
      have hlast := alike_iterate_serve s process hle
      refine ⟨hempty, hheap.trans hlast.heap.symm, houtcomes.trans ?_⟩
      show (s.outcomes.setIfInBounds _ _).setIfInBounds _ _ = _
      rw [h.id_eq count hle, Array.setIfInBounds_setIfInBounds, hlast.process]
      rfl

end Lone

end Scheduler

namespace Session

variable {plain : Prop} {w : Session} {process : Process}

/-- A lone process comes to one end, whatever the quantum is. -/
theorem Reachable.alone (hw : w.Reachable plain) (hpool : w.scheduler.pool = [process]) :
    ∃ last bound, (w.scheduler.machine process).Completes w.scheduler.context last ∧
      ∀ quantum limit, bound ≤ limit →
        ((w.scheduler.withQuantum quantum).interpret limit).pool = [] ∧
        ((w.scheduler.withQuantum quantum).interpret limit).heap = last.heap ∧
        ((w.scheduler.withQuantum quantum).interpret limit).outcomes =
          w.scheduler.outcomes.setIfInBounds process.id last.process.outcome := by
  have hmem : process ∈ w.scheduler.pool := hpool ▸ List.mem_singleton_self process
  obtain ⟨total, hends⟩ := hw.endsIn hmem
  have hid (count : Nat) (hle : count ≤ total) :
      ((Machine.advance w.scheduler.context)^[count] (w.scheduler.machine process)).process.id = process.id := by
    have hrun := Machine.run_eq_iterate hends count
    rw [Nat.min_eq_left hle] at hrun
    rw [← hrun]
    exact hw.run_id hmem count
  refine ⟨_, total + 1, hends.completes, fun quantum limit hlimit => ?_⟩
  have hlone : (w.scheduler.withQuantum quantum).Lone process total :=
    ⟨hpool, hw.registered.outcome_eq process hmem, hends, hid⟩
  exact hlone.runTurns (Nat.le_of_succ_le hlimit) hlimit

/-- Runs with any budgets, one after the other, come to the machine of one run with their sum, and once the process
has ended this is the end of a run without a budget. So a process that is alone in the pool comes with every quantum to
one and the same heap and outcome. -/
theorem preemption_invisible :
    (∀ (ctx : Context) (m : Machine) (budgets : List Nat),
      let last := budgets.foldl (fun m budget => m.run ctx budget) m
      last = m.run ctx budgets.sum ∧
        (last.process.isFinished = true → ∀ k, m.Completes ctx k ↔ k = last)) ∧
      ∀ (plain : Prop) (w : Session) (process : Process), w.Reachable plain → w.scheduler.pool = [process] →
        ∃ last bound, (w.scheduler.machine process).Completes w.scheduler.context last ∧
          ∀ quantum limit, bound ≤ limit →
            let ended := (w.scheduler.withQuantum quantum).interpret limit
            ended.pool = [] ∧ ended.heap = last.heap ∧
              ended.outcomes = w.scheduler.outcomes.setIfInBounds process.id last.process.outcome := by
  refine ⟨fun ctx m budgets => ⟨Machine.foldl_run ctx m budgets, fun hend k => ?_⟩,
    fun plain w process hw hpool => hw.alone hpool⟩
  rw [Machine.foldl_run] at hend ⊢
  have hcompletes := Machine.completes_run hend
  constructor
  · exact fun h => h.unique hcompletes
  · rintro rfl
    exact hcompletes

/-- The turns of a process end where its error has been raised, after the first instruction of the handler and before
the last instruction. -/
theorem preemption_invisible_trial :
    ∃ (w : Session) (process : Process) (last : Machine), w.Reachable False ∧ w.scheduler.pool = [process] ∧
      [18, 1, 12, 1].foldl (fun m budget => m.run w.scheduler.context budget) (w.scheduler.machine process) = last ∧
      last.process.isFinished = true ∧ (w.scheduler.machine process).Completes w.scheduler.context last ∧
      ∃ bound, ∀ quantum limit, bound ≤ limit →
        ((w.scheduler.withQuantum quantum).interpret limit).pool = [] ∧
        ((w.scheduler.withQuantum quantum).interpret limit).heap = last.heap ∧
        ((w.scheduler.withQuantum quantum).interpret limit).outcomes =
          w.scheduler.outcomes.setIfInBounds process.id last.process.outcome := by
  have htrial : ((trial .resume 0).any fun w => w.scheduler.pool.length == 1 && w.scheduler.pool.all fun process =>
      ((w.scheduler.machine process).run w.scheduler.context 32).process.isFinished) = true := by
    decide +kernel
  obtain ⟨w, hw, hcheck⟩ := (Option.any_eq_true _ _).1 htrial
  obtain ⟨hlength, hall⟩ := Bool.and_eq_true_iff.1 hcheck
  obtain ⟨process, hpool⟩ := List.length_eq_one_iff.1 (beq_iff_eq.1 hlength)
  rw [hpool, List.all_cons, List.all_nil, Bool.and_true] at hall
  have hreachable : w.Reachable False := reachable_of_trial hw
  obtain ⟨hsplit, hends⟩ :=
    preemption_invisible.1 w.scheduler.context (w.scheduler.machine process) [18, 1, 12, 1]
  obtain ⟨last, bound, hcompletes, halone⟩ := preemption_invisible.2 False w process hreachable hpool
  have hfinished := (congrArg (·.process.isFinished) hsplit).trans hall
  have hlast := (hends hfinished last).1 hcompletes
  exact ⟨w, process, last, hreachable, hpool, hlast.symm, hlast ▸ hfinished, hcompletes, bound, halone⟩

end Session

end ProtoVm
