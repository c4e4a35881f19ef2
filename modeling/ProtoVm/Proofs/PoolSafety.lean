import ProtoVm.Proofs.MachineSafety
import ProtoVm.Scheduler

/-!
# Processes that share a heap

Whichever process of the pool goes on, the heap stays sound for all of them.
-/

namespace ProtoVm

theorem Heap.Accepts.under {policy policy' : Policy} {heap : Heap} {frames : List Frame}
    {value : Value} (h : heap.Accepts policy frames value)
    (hstrict : policy'.strict → policy.strict) : heap.Accepts policy' frames value :=
  ⟨h.lasts, fun hs => h.plain (hstrict hs)⟩

/-- The same heap under other promises. -/
theorem Heap.Sound.under {policy policy' : Policy} {roots : Roots} {heap : Heap}
    {frames : List Frame} (hs : heap.Sound policy roots frames)
    (hstrict : policy'.strict → policy.strict) (hcoherent : heap.Coherent policy'.copies)
    (hmethods : ∀ id object method, heap.get? id = some object → object.shape.method? = some method →
      policy'.code method.body.code) (hframes : ∀ frame ∈ frames, policy'.code frame.body.code) :
    heap.Sound policy' roots frames := by
  refine ⟨hcoherent, hs.records_nodup, fun id object hget => ?_, fun frame hframe => ?_,
    fun id hid => (hs.anchors id hid).under hstrict⟩
  · have hobject := hs.objects id object hget
    exact ⟨fun value hvalue => (hobject.held value hvalue).under hstrict, hobject.scope,
      fun method => hmethods id object method hget⟩
  · have hframe' := hs.activations frame hframe
    exact ⟨hframe'.records, hframe'.activation, hframe'.effective.under hstrict,
      fun value hvalue => (hframe'.stack value hvalue).imp_right (·.under hstrict),
      fun value hvalue => (hframe'.held value hvalue).under hstrict, hframes frame hframe⟩

theorem Machine.follows_run {policy : Policy} {ctx : Context} {others : List Frame} {m : Machine}
    (budget : Nat) (hs : m.Sound policy ctx.roots others) :
    m.Follows policy ctx.roots others True (m.run ctx budget) := by
  induction budget generalizing m with
  | zero => exact hs.follows_self
  | succ budget ih =>
    unfold Machine.run
    split
    · exact hs.follows_self
    · have hadvance := Machine.follows_advance hs
      exact hadvance.trans (ih hadvance.sound)

namespace Scheduler

/-- The frames of all processes in the pool. -/
def frames (s : Scheduler) : List Frame := s.pool.flatMap (·.ownFrames)

/-- The machine that gives `process` a turn. -/
def machine (s : Scheduler) (process : Process) : Machine where
  heap := s.heap
  process := process
  journal := s.journal

/-- One instruction of the process at `index` in the pool, whether it is its turn or not. -/
def tick (s : Scheduler) (index : Nat) : Scheduler :=
  match s.pool[index]? with
  | some process =>
    if process.isFinished then s
    else
      let machine := Machine.advance s.context { heap := s.heap, process, journal := s.journal }
      { s with
        heap := machine.heap
        pool := s.pool.set index machine.process
        outcomes := s.outcomes.setIfInBounds machine.process.id machine.process.outcome
        journal := machine.journal }
  | none => s

structure Sound (policy : Policy) (s : Scheduler) : Prop where
  heap : s.heap.Sound policy s.roots s.frames
  tokened : ∀ process ∈ s.pool, (s.machine process).Tokened

variable {policy : Policy} {s : Scheduler}

theorem Sound.machine (hs : s.Sound policy) {process : Process} {rest : List Process}
    (hpool : s.pool.Perm (process :: rest)) :
    (s.machine process).Sound policy s.roots (rest.flatMap (·.ownFrames)) :=
  (hs.heap.forget (hpool.flatMap_right _).symm.subperm).sound

/-- A process goes on while the rest of the pool stays as it is. -/
theorem Sound.resume (hs : s.Sound policy) {process : Process} {rest : List Process}
    (hpool : s.pool.Perm (process :: rest)) {m : Machine}
    (h : (s.machine process).Follows policy s.roots (rest.flatMap (·.ownFrames)) True m)
    {pool : List Process} (hpool' : pool.Perm (m.process :: rest))
    (outcomes : Array (Option Outcome)) (journal : List Event) :
    Heap.Follows policy s.roots s.heap s.frames m.heap (pool.flatMap (·.ownFrames)) ∧
      Sound policy { s with heap := m.heap, pool, outcomes, journal } := by
  have hbefore : Heap.Follows policy s.roots s.heap s.frames s.heap
      ((s.machine process).framesWith (rest.flatMap (·.ownFrames))) :=
    hs.heap.forget (hpool.flatMap_right _).symm.subperm
  have hafter : Heap.Follows policy s.roots m.heap (m.framesWith (rest.flatMap (·.ownFrames))) m.heap
      (pool.flatMap (·.ownFrames)) :=
    h.sound.forget (hpool'.flatMap_right (·.ownFrames)).subperm
  have hfollows := hbefore.trans (h.heap.trans hafter)
  refine ⟨hfollows, hfollows.sound, fun other hother => ?_⟩
  rcases List.mem_cons.1 (hpool'.mem_iff.1 hother) with rfl | hother
  · exact h.tokened trivial (hs.tokened process (hpool.mem_iff.2 List.mem_cons_self))
  · have htokened := hs.tokened other (hpool.mem_iff.2 (.tail _ hother))
    exact htokened.evolves hs.heap.coherent hfollows.evolves rfl (Nat.le_refl _)

end Scheduler

end ProtoVm
