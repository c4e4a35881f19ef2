import Mathlib.Algebra.Order.BigOperators.Group.List
import Mathlib.Algebra.Order.Group.Nat
import Mathlib.Data.Fintype.Card
import ProtoVm.Proofs.Rank
import ProtoVm.Proofs.SessionSafety

/-!
# Every program ends

No code can come to run that is longer than the code there is at first, and no more stacks can be parked
than the heap has cells, so the rank of every process bounds how many instructions it has left.
-/

namespace ProtoVm

/-! ## How long code gets -/

mutual

/-- The length of the longest unit that can run when the literal does. -/
def Literal.extent : Literal → Nat
  | .object _ _ (some code) => code.extent
  | .object _ _ none => Code.padding.length
  | _ => 0
termination_by structural l => l

/-- The length of the longest unit that can run when this one does, each with its closing returns. -/
def Code.extent : Code → Nat
  | ⟨bytes, literals, finalized⟩ =>
    max (bytes.size + if finalized then 0 else Code.padding.length) (extentOfLiterals literals)
termination_by structural code => code

def extentOfLiterals : List Literal → Nat
  | [] => 0
  | l :: rest => max l.extent (extentOfLiterals rest)
termination_by structural literals => literals

end

theorem size_append_padding (bytes : Array UInt8) :
    (bytes ++ Code.padding).size = bytes.size + Code.padding.length := by
  rw [← Array.length_toList, Array.toList_appendList, List.length_append, Array.length_toList]

mutual

theorem Literal.extent_finalize : ∀ l : Literal, l.finalize.extent = l.extent
  | .object _ _ (some code) => code.extent_finalize
  | .object _ _ none => rfl
  | .int _ => rfl
  | .float _ => rfl
  | .text _ => rfl
termination_by structural l => l

theorem Code.extent_finalize : ∀ code : Code, code.finalize.extent = code.extent
  | ⟨bytes, literals, false⟩ => by
    simp [Code.finalize, Code.extent, extentOfLiterals_finalize literals, size_append_padding]
  | ⟨bytes, literals, true⟩ => rfl
termination_by structural code => code

theorem extentOfLiterals_finalize : ∀ literals : List Literal,
    extentOfLiterals (finalizeLiterals literals) = extentOfLiterals literals
  | [] => rfl
  | l :: rest => by
    simp only [finalizeLiterals, extentOfLiterals, l.extent_finalize,
      extentOfLiterals_finalize rest]
termination_by structural literals => literals

end

theorem Literal.extent_le {l : Literal} {literals : List Literal} (h : l ∈ literals) :
    l.extent ≤ extentOfLiterals literals := by
  induction literals with
  | nil => cases h
  | cons first rest ih =>
    rw [extentOfLiterals]
    rcases List.mem_cons.1 h with rfl | h
    · exact Nat.le_max_left _ _
    · exact Nat.le_trans (ih h) (Nat.le_max_right _ _)

theorem Code.extentOfLiterals_le (code : Code) : extentOfLiterals code.literals ≤ code.extent := by
  rcases code with ⟨bytes, literals, finalized⟩
  exact Nat.le_max_right _ _

theorem Code.size_le_extent (code : Code) : code.bytes.size ≤ code.extent := by
  rcases code with ⟨bytes, literals, finalized⟩
  exact Nat.le_trans (Nat.le_add_right _ _) (Nat.le_max_left _ _)

theorem Code.extent_nested {code : Code} {kind : ObjectKind} {params : List String}
    {inner : Option Code} (h : Literal.object kind params inner ∈ code.literals) :
    (inner.getD {}).finalize.extent ≤ code.extent := by
  refine Nat.le_trans ?_ (Nat.le_trans (Literal.extent_le h) code.extentOfLiterals_le)
  rw [Code.extent_finalize]
  cases inner with
  | none => exact Nat.le_of_eq rfl
  | some code => exact Nat.le_refl _

/-- No code longer than `size` runs. -/
def Policy.bounded (size : Nat) (copies : List Object) : Policy where
  strict := False
  code := fun unit => unit.extent ≤ size
  copies := copies
  nested := fun _ hunit _ _ _ h => Nat.le_trans (Code.extent_nested h) hunit

/-! ## How many stacks get parked -/

namespace Machine

variable {policy : Policy} {ctx : Context} {others : List Frame} {m : Machine} {size : Nat}

/-- Every parked stack has a cell of the heap to itself. -/
theorem Tokened.length_le (ht : m.Tokened) : m.process.parked.length ≤ m.heap.cells.size := by
  have hnamed (index : Fin m.process.parked.length) := ht index index.isLt
  choose token object hget hpayload using hnamed
  have hcell (index : Fin m.process.parked.length) := Heap.get?_eq_some_iff.1 (hget index)
  have hlt (index : Fin m.process.parked.length) : (token index).index < m.heap.cells.size :=
    (Array.getElem?_eq_some_iff.1 (hcell index)).1
  have hinjective : Function.Injective fun index : Fin m.process.parked.length =>
      (⟨(token index).index, hlt index⟩ : Fin m.heap.cells.size) := by
    intro first second heq
    have hsame : (token first).index = (token second).index := congrArg Fin.val heq
    have hcells := hcell first
    rw [hsame, hcell second] at hcells
    have hobject : object second = object first :=
      Option.some.inj (Cell.mk.inj (Option.some.inj hcells)).2
    have hpayloads := hpayload second
    rw [hobject, hpayload first] at hpayloads
    injection hpayloads with _ hindex
    exact Fin.ext hindex
  simpa using Fintype.card_le_of_injective _ hinjective

/-! ## How many instructions are left -/

/-- How many instructions the process has left at most, if no code is longer than `size`. -/
def rank (ctx : Context) (size : Nat) (m : Machine) : Nat := m.process.rank size ctx.maxFrames m.heap.limit

theorem rank_advance_lt {copies : List Object}
    (hs : m.Sound (.bounded size copies) ctx.roots others) (ht : m.Tokened)
    (hgoing : m.process.isFinished = false) : (m.advance ctx).rank ctx size < m.rank ctx size := by
  have hfollows := follows_advance hs
  have hlimit : (m.advance ctx).heap.limit = m.heap.limit :=
    hfollows.heap.evolves.limit_eq hs.coherent
  have htokens : (m.advance ctx).process.parked.length ≤ m.heap.limit := by
    rw [← hlimit]
    exact Nat.le_trans (hfollows.tokened trivial ht).length_le hfollows.sound.coherent.tidy.size_le
  unfold rank
  rw [hlimit]
  refine (moves_advance ctx m).rank_lt hgoing (fun frame callers hframes => ?_) htokens
  exact Nat.le_trans (Code.size_le_extent _) (Sound.frame hs hframes).code

theorem run_of_isFinished (budget : Nat) (h : m.process.isFinished = true) :
    m.run ctx budget = m := by
  cases budget with
  | zero => rfl
  | succ budget => simp [run, h]

theorem run_succ (budget : Nat) (h : m.process.isFinished = false) :
    m.run ctx (budget + 1) = (m.advance ctx).run ctx budget := by
  simp [run, h]

/-- With as many instructions as its rank allows a process ends, and more make no difference. -/
theorem run_eq_run {copies : List Object} (hs : m.Sound (.bounded size copies) ctx.roots others)
    (ht : m.Tokened) {budget budget' : Nat} (hbudget : m.rank ctx size ≤ budget)
    (hbudget' : m.rank ctx size ≤ budget') :
    (m.run ctx budget).process.isFinished = true ∧ m.run ctx budget' = m.run ctx budget := by
  induction budget generalizing m budget' with
  | zero =>
    have hend : m.process.isFinished = true := by
      by_contra hgoing
      have hpos : 0 < m.rank ctx size := Process.rank_pos (by simpa using hgoing)
      omega
    rw [run_of_isFinished _ hend, run_of_isFinished _ hend]
    exact ⟨hend, rfl⟩
  | succ budget ih =>
    cases hend : m.process.isFinished with
    | true =>
      rw [run_of_isFinished _ hend, run_of_isFinished _ hend]
      exact ⟨hend, rfl⟩
    | false =>
      have hlt := rank_advance_lt hs ht hend
      have hfollows := follows_advance hs
      obtain ⟨rest, rfl⟩ : ∃ rest, budget' = rest + 1 := ⟨budget' - 1, by omega⟩
      rw [run_succ _ hend, run_succ _ hend]
      exact ih hfollows.sound (hfollows.tokened trivial ht) (by omega) (by omega)

theorem rank_run_le {copies : List Object} (hs : m.Sound (.bounded size copies) ctx.roots others)
    (ht : m.Tokened) (budget : Nat) : (m.run ctx budget).rank ctx size ≤ m.rank ctx size := by
  induction budget generalizing m with
  | zero => exact Nat.le_refl _
  | succ budget ih =>
    cases hend : m.process.isFinished with
    | true => rw [run_of_isFinished _ hend]
    | false =>
      have hfollows := follows_advance hs
      rw [run_succ _ hend]
      exact Nat.le_trans (ih hfollows.sound (hfollows.tokened trivial ht))
        (Nat.le_of_lt (rank_advance_lt hs ht hend))

theorem rank_run_lt {copies : List Object} (hs : m.Sound (.bounded size copies) ctx.roots others)
    (ht : m.Tokened) {budget : Nat} (hbudget : 0 < budget) (hgoing : m.process.isFinished = false) :
    (m.run ctx budget).rank ctx size < m.rank ctx size := by
  obtain ⟨rest, rfl⟩ : ∃ rest, budget = rest + 1 := ⟨budget - 1, by omega⟩
  have hfollows := follows_advance hs
  rw [run_succ _ hgoing]
  exact Nat.lt_of_le_of_lt (rank_run_le hfollows.sound (hfollows.tokened trivial ht) rest)
    (rank_advance_lt hs ht hgoing)

end Machine

namespace Scheduler

variable {copies : List Object} {size n : Nat} {s s' : Scheduler}

/-- How many instructions and departures the pool has left at most. -/
def rank (size : Nat) (s : Scheduler) : Nat :=
  (s.pool.map fun process => process.rank size s.config.maxFrames s.heap.limit + 1).sum

/-- `n` instructions of processes that have not ended, in any order. -/
inductive Works (s : Scheduler) : Nat → Scheduler → Prop
  | none : Works s 0 s
  | more {n index : Nat} {s' : Scheduler} {process : Process} (h : Works s n s')
      (hprocess : s'.pool[index]? = some process) (hgoing : process.isFinished = false) :
      Works s (n + 1) (s'.tick index)

/-- When a process goes on, the rank of the pool falls by as much as its own. -/
theorem rank_resume {process : Process} {rest : List Process} (hpool : s.pool.Perm (process :: rest)) {m : Machine}
    (hlimit : m.heap.limit = s.heap.limit) {pool : List Process} (hpool' : pool.Perm (m.process :: rest))
    (outcomes : Array (Option Outcome)) (journal : List Event) :
    rank size { s with heap := m.heap, pool, outcomes, journal } + (s.machine process).rank s.context size =
      s.rank size + m.rank s.context size := by
  have hbefore :=
    ((hpool.map fun process => process.rank size s.config.maxFrames s.heap.limit + 1)).sum_eq
  have hafter :=
    ((hpool'.map fun process => process.rank size s.config.maxFrames s.heap.limit + 1)).sum_eq
  simp only [List.map_cons, List.sum_cons] at hbefore hafter
  simp only [rank, Machine.rank, machine, context, hlimit]
  omega

/-- The process at the front of the rest goes on with an instruction or more. -/
theorem Sound.lowers (hs : s.Sound (.bounded size copies)) {process : Process} {rest : List Process}
    (hpool : s.pool.Perm (process :: rest)) {m : Machine}
    (h : (s.machine process).Follows (.bounded size copies) s.roots (rest.flatMap (·.ownFrames)) True m)
    (hlt : m.rank s.context size < (s.machine process).rank s.context size)
    {pool : List Process} (hpool' : pool.Perm (m.process :: rest)) (outcomes : Array (Option Outcome))
    (journal : List Event) :
    Sound (.bounded size copies) { s with heap := m.heap, pool, outcomes, journal } ∧
      rank size { s with heap := m.heap, pool, outcomes, journal } < s.rank size := by
  refine ⟨(hs.resume hpool h hpool' outcomes journal).2, ?_⟩
  have hlimit : m.heap.limit = s.heap.limit := h.heap.evolves.limit_eq hs.heap.coherent
  have hrank : rank size { s with heap := m.heap, pool, outcomes, journal } + (s.machine process).rank s.context size =
    s.rank size + m.rank s.context size := rank_resume hpool hlimit hpool' outcomes journal
  omega

theorem Sound.tick (hs : s.Sound (.bounded size copies)) {index : Nat} {process : Process}
    (hprocess : s.pool[index]? = some process) (hgoing : process.isFinished = false) :
    (s.tick index).Sound (.bounded size copies) ∧ (s.tick index).rank size < s.rank size := by
  obtain ⟨hindex, rfl⟩ := List.getElem?_eq_some_iff.1 hprocess
  have hperm := (List.getElem_cons_eraseIdx_perm hindex).symm
  have hmachine : (s.machine s.pool[index]).Sound (.bounded size copies) s.context.roots
    ((s.pool.eraseIdx index).flatMap (·.ownFrames)) := hs.machine hperm
  have htick : s.tick index =
      { s with
        heap := ((s.machine s.pool[index]).advance s.context).heap
        pool := s.pool.set index ((s.machine s.pool[index]).advance s.context).process
        outcomes := s.outcomes.setIfInBounds ((s.machine s.pool[index]).advance s.context).process.id
          ((s.machine s.pool[index]).advance s.context).process.outcome
        journal := ((s.machine s.pool[index]).advance s.context).journal } := by
    simp [Scheduler.tick, hindex, hgoing, Scheduler.machine]
  rw [htick]
  exact hs.lowers hperm (Machine.follows_advance hmachine)
    (Machine.rank_advance_lt hmachine (hs.tokened _ (List.getElem_mem hindex)) hgoing)
    (List.set_perm_cons_eraseIdx hindex _) _ _

/-- However the processes take turns, their ranks allow only so many instructions. -/
theorem Works.add_rank_le (h : s.Works n s') (hs : s.Sound (.bounded size copies)) :
    s'.Sound (.bounded size copies) ∧ n + s'.rank size ≤ s.rank size := by
  induction h with
  | none => exact ⟨hs, by omega⟩
  | more h hprocess hgoing ih =>
    obtain ⟨hsound, hlt⟩ := ih.1.tick hprocess hgoing
    exact ⟨hsound, by omega⟩

theorem Sound.exists_works (hs : s.Sound (.bounded size copies)) (h : s.Works n s') :
    ∃ n s', s.Works n s' ∧ s'.hasWork = false := by
  induction hrank : s'.rank size using Nat.strong_induction_on generalizing n s' with
  | _ k ih =>
    cases hwork : s'.hasWork with
    | false => exact ⟨n, s', h, hwork⟩
    | true =>
      obtain ⟨process, hprocess, hgoing⟩ := List.any_eq_true.1 hwork
      obtain ⟨index, hindex⟩ := List.getElem?_of_mem hprocess
      have hgoing : process.isFinished = false := by simpa using hgoing
      have hlt := ((h.add_rank_le hs).1.tick hindex hgoing).2
      exact ih _ (hrank ▸ hlt) (.more h hindex hgoing) rfl

theorem rank_lt_of_mem {process : Process} (h : process ∈ s.pool) :
    (s.machine process).rank s.context size < s.rank size := by
  have hmem : process.rank size s.config.maxFrames s.heap.limit + 1 ∈
      s.pool.map fun process => process.rank size s.config.maxFrames s.heap.limit + 1 := List.mem_map_of_mem h
  exact List.le_sum_of_mem hmem

/-- A turn lowers the rank, and with enough room its limit does not matter. -/
theorem Sound.runOnce {process : Process} {pool : List Process}
    (hs : s.Sound (.bounded size copies)) (hpool : s.pool = process :: pool) {limit limit' : Nat}
    (hlimit : s.rank size ≤ limit) (hlimit' : s.rank size ≤ limit') :
    ∃ s', s.runOnce limit = (true, s') ∧ s.runOnce limit' = (true, s') ∧ s'.Sound (.bounded size copies) ∧
      s'.rank size < s.rank size := by
  have hperm : s.pool.Perm (process :: pool) := .of_eq hpool
  have hmem : process ∈ s.pool := hperm.mem_iff.2 List.mem_cons_self
  unfold Scheduler.runOnce
  simp only [hpool]
  cases hend : process.isFinished with
  | true =>
    refine ⟨_, rfl, rfl, ⟨?_, fun other hother => ?_⟩, ?_⟩
    · have hsublist : pool.Sublist s.pool := hpool ▸ List.sublist_cons_self process pool
      exact (hs.heap.forget (hsublist.flatMap _).subperm).sound
    · exact hs.tokened other (hpool ▸ .tail _ hother)
    · simp only [rank, hpool, List.map_cons, List.sum_cons, note]
      omega
  | false =>
    have hmachine : (s.machine process).Sound (.bounded size copies) s.context.roots (pool.flatMap (·.ownFrames)) :=
      hs.machine hperm
    have hlt : (s.machine process).rank s.context size < s.rank size := rank_lt_of_mem hmem
    have htokened := hs.tokened process hmem
    have hbudget : (s.machine process).run s.context (s.budget limit') =
        (s.machine process).run s.context (s.budget limit) := by
      unfold budget
      split
      · exact (Machine.run_eq_run hmachine htokened (by omega) (by omega)).2
      · rfl
    have hpos : 0 < s.budget limit := by
      unfold budget
      split <;> omega
    have hturn := hs.lowers hperm (Machine.follows_run (s.budget limit) hmachine)
      (Machine.rank_run_lt hmachine htokened hpos hend) (List.perm_append_singleton _ _)
      (s.outcomes.setIfInBounds ((s.machine process).run s.context (s.budget limit)).process.id
        ((s.machine process).run s.context (s.budget limit)).process.outcome) []
    refine ⟨_, rfl, ?_, ⟨hturn.1.heap, hturn.1.tokened⟩, hturn.2⟩
    simp only [takeTurn, context, budget, Scheduler.machine] at hbudget ⊢
    rw [hbudget]
    rfl

theorem runOnce_of_pool_eq_nil (h : s.pool = []) (limit : Nat) : s.runOnce limit = (false, s) := by
  simp [Scheduler.runOnce, h]

theorem runTurns_of_pool_eq_nil (h : s.pool = []) (limit turns : Nat) :
    s.runTurns limit turns = s := by
  cases turns with
  | zero => rfl
  | succ turns => simp [runTurns, runOnce_of_pool_eq_nil h]

/-- Enough turns empty the pool, and more make no difference. -/
theorem Sound.runTurns_eq (hs : s.Sound (.bounded size copies)) {limit limit' turns turns' : Nat}
    (hlimit : s.rank size ≤ limit) (hlimit' : s.rank size ≤ limit') (hturns : s.rank size ≤ turns)
    (hturns' : s.rank size ≤ turns') :
    (s.runTurns limit turns).pool = [] ∧ s.runTurns limit' turns' = s.runTurns limit turns := by
  induction turns generalizing s turns' with
  | zero =>
    have hpool : s.pool = [] := by
      rw [List.eq_nil_iff_forall_not_mem]
      intro process hprocess
      have hlt : (s.machine process).rank s.context size < s.rank size := rank_lt_of_mem hprocess
      omega
    rw [runTurns_of_pool_eq_nil hpool, runTurns_of_pool_eq_nil hpool]
    exact ⟨hpool, rfl⟩
  | succ turns ih =>
    cases hpool : s.pool with
    | nil =>
      rw [runTurns_of_pool_eq_nil hpool, runTurns_of_pool_eq_nil hpool]
      exact ⟨hpool, rfl⟩
    | cons process pool =>
      obtain ⟨s', hrun, hrun', hsound, hlt⟩ := hs.runOnce hpool hlimit hlimit'
      obtain ⟨rest, rfl⟩ : ∃ rest, turns' = rest + 1 := ⟨turns' - 1, by omega⟩
      simp only [runTurns, hrun, hrun']
      exact ih hsound (by omega) (by omega) (by omega) (by omega)

end Scheduler

/-! ## Every session comes to rest -/

namespace Session

variable {plain : Prop} {w : Session}

/-- There is a bound on the code that can come to run. -/
theorem Sound.bounded (hs : w.Sound plain) :
    ∃ size, w.scheduler.Sound (.bounded size w.copies) := by
  have hobjects : ∃ size, ∀ id object method, w.heap.get? id = some object → object.shape.method? = some method →
      method.body.code.extent ≤ size := by
    refine ⟨((w.heap.objects.filterMap (·.shape.method?)).map (·.body.code.extent)).sum, ?_⟩
    intro id object method hget hmethod
    refine List.le_sum_of_mem (List.mem_map_of_mem (List.mem_filterMap.2 ⟨object, ?_, hmethod⟩))
    exact Heap.mem_objects_iff.2 ⟨id, hget⟩
  have hframes : ∃ size, ∀ frame ∈ w.frames, frame.body.code.extent ≤ size :=
    ⟨(w.frames.map (·.body.code.extent)).sum, fun frame hframe => List.le_sum_of_mem (List.mem_map_of_mem hframe)⟩
  obtain ⟨first, hfirst⟩ := hobjects
  obtain ⟨second, hsecond⟩ := hframes
  refine ⟨max first second, hs.heap.under (fun h => h.elim) hs.heap.coherent ?_ ?_, hs.tokened⟩
  · intro id object method hget hmethod
    exact Nat.le_trans (hfirst id object method hget hmethod) (Nat.le_max_left _ _)
  · intro frame hframe
    exact Nat.le_trans (hsecond frame hframe) (Nat.le_max_right _ _)

/-- From every reachable session all processes come to their end: there is a bound on the instructions that they
can take in any order, a process that runs alone ends within it, and so does the scheduler, which is left with an
empty pool. -/
theorem terminates (hw : w.Reachable plain) :
    ∃ bound,
      (∀ n s', w.scheduler.Works n s' → n ≤ bound) ∧ (∃ n s', w.scheduler.Works n s' ∧ s'.hasWork = false) ∧
      (∀ process ∈ w.scheduler.pool, ∀ budget, bound ≤ budget →
      ((w.scheduler.machine process).run w.scheduler.context budget).process.isFinished = true ∧
      (w.scheduler.machine process).run w.scheduler.context budget =
        (w.scheduler.machine process).run w.scheduler.context bound) ∧
      ∀ limit, bound ≤ limit → (w.scheduler.interpret limit).pool = [] ∧
      w.scheduler.interpret limit = w.scheduler.interpret bound := by
  obtain ⟨size, hs⟩ := hw.sound.bounded
  refine ⟨w.scheduler.rank size, fun n s' h => ?_, hs.exists_works .none,
    fun process hprocess budget hbudget => ?_, fun limit hlimit => ?_⟩
  · have hle := (h.add_rank_le hs).2
    omega
  · have hlt : (w.scheduler.machine process).rank w.scheduler.context size < w.scheduler.rank size :=
      Scheduler.rank_lt_of_mem hprocess
    obtain ⟨before, after, hpool⟩ := List.append_of_mem hprocess
    have hmachine : (w.scheduler.machine process).Sound (.bounded size w.copies) w.scheduler.context.roots
      ((before ++ after).flatMap (·.ownFrames)) := hs.machine (hpool ▸ List.perm_middle)
    obtain ⟨hend, hrun⟩ := Machine.run_eq_run hmachine (hs.tokened process hprocess) (Nat.le_of_lt hlt)
      (Nat.le_trans (Nat.le_of_lt hlt) hbudget)
    exact ⟨hrun ▸ hend, hrun⟩
  · obtain ⟨hpool, hrun⟩ := hs.runTurns_eq (Nat.le_refl _) hlimit (Nat.le_refl _) hlimit
    refine ⟨?_, hrun⟩
    rw [Scheduler.interpret, hrun]
    exact hpool

theorem terminates_trial : ∃ w : Session, w.Reachable False ∧ w.scheduler.hasWork = true ∧
    ∃ bound, ∀ limit, bound ≤ limit → (w.scheduler.interpret limit).pool = [] := by
  have htrial : ((trial .resume 0).any fun w => w.scheduler.hasWork) = true := by decide +kernel
  obtain ⟨w, hw, hwork⟩ := (Option.any_eq_true _ _).1 htrial
  have hreachable : w.Reachable False := reachable_of_trial hw
  obtain ⟨bound, -, -, -, hinterpret⟩ := terminates hreachable
  exact ⟨w, hreachable, hwork, bound, fun limit hlimit => (hinterpret limit hlimit).1⟩

end Session

end ProtoVm
