import ProtoVm.Proofs.History
import ProtoVm.Proofs.Lifecycle

/-!
# Processes that are removed

The frames of a process that ends give their records back. A process that is removed takes its frames with it, and
nobody is left to give back what they had: these records stay in the heap for good.
-/

namespace ProtoVm

/-- The records that the frames of a process, running or parked, have to give back. -/
def Process.debts (process : Process) : List ObjectId := process.ownFrames.flatMap (·.releasable)

theorem Process.mem_debts {process : Process} {id : ObjectId} :
    id ∈ process.debts ↔ ∃ frame ∈ process.ownFrames, id ∈ frame.records ∧ frame.captured = false := by
  simp only [debts, List.mem_flatMap, Frame.mem_releasable]

namespace Scheduler

variable {s : Scheduler} {process : Process}

/-- Numbers are not given twice, so that just the process goes that is meant. -/
theorem Registered.removeProcess (hs : s.Registered) (hprocess : process ∈ s.pool) :
    (s.removeProcess process.id).1 = true ∧ (s.removeProcess process.id).2.heap = s.heap ∧
      s.pool.Perm (process :: (s.removeProcess process.id).2.pool) := by
  have hany : s.pool.any (·.id == process.id) = true := List.any_eq_true.2 ⟨process, hprocess, beq_self_eq_true _⟩
  obtain ⟨found, before, after, hbefore, hfound, hpool, herase⟩ :=
    List.exists_of_eraseP (p := (·.id == process.id)) hprocess (beq_self_eq_true _)
  have hsame : found = process := by
    refine List.inj_on_of_nodup_map hs.nodup ?_ hprocess (by simpa using hfound)
    rw [hpool]
    exact List.mem_append_right _ List.mem_cons_self
  simp only [Scheduler.removeProcess, hany, if_true, herase]
  refine ⟨trivial, rfl, ?_⟩
  rw [hpool, hsame]
  exact List.perm_middle

end Scheduler

namespace Session

variable {plain : Prop} {w : Session} {process : Process}

/-- The records that the process had to give back have gone from `w` to `w'`, and the heap counts as many objects
less. -/
structure Settles (process : Process) (w w' : Session) : Prop where
  gone : ∀ id ∈ process.debts, w'.heap.isLive id = false
  size_eq : w'.heap.size + process.debts.length = w.heap.size

theorem Reachable.isLive_of_mem_debts (hw : w.Reachable plain) (hprocess : process ∈ w.scheduler.pool) {id : ObjectId}
    (hid : id ∈ process.debts) : w.heap.isLive id = true := by
  obtain ⟨frame, hframe, hrecord, -⟩ := Process.mem_debts.1 hid
  obtain ⟨object, hget, -⟩ :=
    (hw.sound.heap.activations frame (List.mem_flatMap.2 ⟨process, hprocess, hframe⟩)).records id hrecord
  exact Heap.isLive_iff.2 ⟨object, hget⟩

/-- No other process has to give back what this one has to give back. -/
theorem Reachable.not_mem_debts (hw : w.Reachable plain) {rest : List Process}
    (hpool : w.scheduler.pool.Perm (process :: rest)) {id : ObjectId} (hid : id ∈ process.debts) :
    ∀ frame ∈ rest.flatMap (·.ownFrames), id ∉ frame.releasable := by
  intro frame hframe hreleasable
  obtain ⟨own, hown, hrecord, -⟩ := Process.mem_debts.1 hid
  have hframes : w.frames.Perm (process.ownFrames ++ rest.flatMap (·.ownFrames)) := hpool.flatMap_right _
  have hnodup := (hframes.flatMap_right (·.records)).nodup_iff.1 hw.sound.heap.records_nodup
  rw [List.flatMap_append] at hnodup
  exact List.disjoint_of_nodup_append hnodup (List.mem_flatMap.2 ⟨own, hown, hrecord⟩)
    (List.mem_flatMap.2 ⟨frame, hframe, (Frame.mem_releasable.1 hreleasable).1⟩)

/-- Removing a process leaves the heap as it is. So it settles what the process had to give back just if this is
nothing, and whatever it is stays live in all later sessions. -/
theorem settles_iff_of_removed (hw : w.Reachable plain) (hprocess : process ∈ w.scheduler.pool) :
    let removed := w.after (.remove process.id)
    (w.scheduler.removeProcess process.id).1 = true ∧
      w.scheduler.pool.Perm (process :: removed.scheduler.pool) ∧ removed.heap = w.heap ∧
      (Settles process w removed ↔ process.debts = []) ∧ (process.isFinished = true → process.debts = []) ∧
      ∀ later, Relation.ReflTransGen (Step plain) removed later →
        ∀ id ∈ process.debts, later.heap.isLive id = true := by
  intro removed
  obtain ⟨hfound, hheap, hpool⟩ := hw.registered.removeProcess hprocess
  have hpermits : w.Permits plain (.remove process.id) := trivial
  have hremoved : removed.Reachable plain := hw.step hpermits.step
  have hlive (id : ObjectId) (hid : id ∈ process.debts) : removed.heap.isLive id = true := by
    rw [show removed.heap = w.heap from hheap]
    exact hw.isLive_of_mem_debts hprocess hid
  refine ⟨hfound, hpool, hheap, ⟨fun hsettles => ?_, fun hnone => ?_⟩, fun hdone => ?_, fun later hlater id hid => ?_⟩
  · refine List.eq_nil_iff_forall_not_mem.2 fun id hid => ?_
    have hkept := hlive id hid
    rw [hsettles.gone id hid] at hkept
    cases hkept
  · refine ⟨by simp [hnone], ?_⟩
    rw [hnone, show removed.heap = w.heap from hheap]
    rfl
  · obtain ⟨hframes, hparked⟩ := (hw.upright process hprocess).2 hdone
    simp [Process.debts, Process.ownFrames, hframes, hparked]
  · exact hremoved.isLive_of_later hlater (hlive id hid) (hw.not_mem_debts hpool hid)

/-- A handler runs and the stack that raised the error is parked. Both records of the handler's call stay when the
process is removed. -/
theorem settles_iff_of_removed_trial :
    ∃ (w : Session) (process : Process) (handler : Frame) (activation binding : ObjectId),
      w.Reachable False ∧ process ∈ w.scheduler.pool ∧ process.frames = [handler] ∧
      (∃ stack ∈ process.parked, stack.isSome) ∧ process.debts = [activation, binding] ∧
      ¬ Settles process w (w.after (.remove process.id)) ∧
      (w.after (.remove process.id)).heap.isLive activation = true ∧
      (w.after (.remove process.id)).heap.isLive binding = true := by
  have htrial : ((trial .resume 28).any fun w => w.scheduler.pool.any fun process =>
      process.parked.any (·.isSome) && process.frames.length == 1 && process.debts.length == 2) = true := by
    decide +kernel
  obtain ⟨w, hw, hcheck⟩ := (Option.any_eq_true _ _).1 htrial
  obtain ⟨process, hprocess, hcheck⟩ := List.any_eq_true.1 hcheck
  simp only [Bool.and_eq_true, beq_iff_eq] at hcheck
  obtain ⟨⟨hparked, hone⟩, htwo⟩ := hcheck
  obtain ⟨handler, hframes⟩ := List.length_eq_one_iff.1 hone
  obtain ⟨activation, binding, hdebts⟩ := List.length_eq_two.1 htwo
  have hreachable : w.Reachable False := reachable_of_trial hw
  obtain ⟨-, -, -, hsettles, -, hlive⟩ := settles_iff_of_removed hreachable hprocess
  refine ⟨w, process, handler, activation, binding, hreachable, hprocess, hframes, List.any_eq_true.1 hparked, hdebts,
    ?_, hlive _ .refl activation (by simp [hdebts]), hlive _ .refl binding (by simp [hdebts])⟩
  rw [hsettles, hdebts]
  exact List.cons_ne_nil _ _

/-- Runs `(| m: = (| x | x) |) m: 1`. -/
def callWithArgument : List Line :=
  [.push (.object .plain [] none), .push (.text "m:"),
    .push (.object .method ["x"] (some ([.pushSelf] ++ Demo.send "x" .unary 0))), .addSlot .normal, .push (.int 1)] ++
    Demo.send "m:" .keyword 1

/-- A process is removed inside its call, and the records of the call stay. -/
theorem not_settles_of_removed :
    ∃ (w : Session) (process : Process), w.Reachable False ∧ process ∈ w.scheduler.pool ∧
      (w.scheduler.removeProcess process.id).1 = true ∧ process.debts.length = 2 ∧
      ¬ Settles process w (w.after (.remove process.id)) := by
  have hrehearsal : ((rehearsal callWithArgument 7).any fun w => w.scheduler.pool.any fun process =>
      (w.scheduler.removeProcess process.id).1 && process.debts.length == 2 &&
        process.debts.any (w.after (.remove process.id)).heap.isLive) = true := by
    decide +kernel
  obtain ⟨w, hw, hcheck⟩ := (Option.any_eq_true _ _).1 hrehearsal
  obtain ⟨process, hprocess, hcheck⟩ := List.any_eq_true.1 hcheck
  simp only [Bool.and_eq_true, beq_iff_eq] at hcheck
  obtain ⟨⟨hremoved, htwo⟩, hlive⟩ := hcheck
  obtain ⟨id, hid, hlive⟩ := List.any_eq_true.1 hlive
  refine ⟨w, process, reachable_of_rehearsal hw, hprocess, hremoved, htwo, fun hsettles => ?_⟩
  rw [hsettles.gone id hid] at hlive
  cases hlive

end Session

end ProtoVm
