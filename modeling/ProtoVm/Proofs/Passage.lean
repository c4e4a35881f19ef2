import ProtoVm.Proofs.Anatomy
import ProtoVm.Proofs.OperandStack

/-!
# Where frames stand

A frame of a process that goes on stands at a place of its code and has not come past a return. It is marked as
captured just if it has come past an object literal.
-/

namespace ProtoVm

structure Frame.Settled (frame : Frame) : Prop where
  place : frame.body.code.Place frame.ip
  captured_eq : frame.captured = (frame.body.code.before frame.ip).any (·.makesObject)
  going : .returnTop ∉ frame.body.code.before frame.ip

namespace Frame

variable {frame frame' : Frame}

theorem Settled.of_bare (hs : frame.Settled) (h : frame'.bare = frame.bare) : frame'.Settled := by
  obtain ⟨hbody, hip, -, -, -, -, hcaptured⟩ := eq_of_bare h
  refine ⟨?_, ?_, ?_⟩
  · rw [hbody, hip]
    exact hs.place
  · rw [hbody, hip, hcaptured]
    exact hs.captured_eq
  · rw [hbody, hip]
    exact hs.going

theorem settled_of_start (hip : frame.ip = 0) (hcaptured : frame.captured = false) : frame.Settled := by
  refine ⟨?_, ?_, ?_⟩
  · rw [hip]
    exact .start
  · rw [hip, hcaptured, Code.before_zero]
    rfl
  · rw [hip, Code.before_zero]
    exact List.not_mem_nil

theorem Settled.after (hs : frame.Settled) {i : Instruction}
    (hdecode : Instruction.decode frame.body.code.bytes frame.ip = .ok i) (hi : i ≠ .returnTop) :
    (frame.after i).Settled := by
  have hbefore := hs.place.before_next hdecode
  refine ⟨hs.place.next hdecode, ?_, ?_⟩
  · show (frame.captured || i.makesObject) = (frame.body.code.before (frame.ip + i.length)).any (·.makesObject)
    rw [hbefore, List.any_append, List.any_cons, List.any_nil, Bool.or_false, hs.captured_eq]
  · show Instruction.returnTop ∉ frame.body.code.before (frame.ip + i.length)
    rw [hbefore, List.mem_append, List.mem_singleton, not_or]
    exact ⟨hs.going, hi.symm⟩

theorem Begins.settled {kind : FrameKind} {heap heap' : Heap} (h : frame.Begins kind heap heap') : frame.Settled := by
  obtain ⟨hmethod, hrecords, rfl⟩ := h
  exact settled_of_start rfl rfl

end Frame

theorem Process.Lacks.stacked {d : Int} {process : Process} (h : process.Lacks d) : process.Stacked :=
  fun stack hstack => (h.parked stack hstack).1

/-- One instruction leaves all frames where they may stand. -/
theorem Machine.settled_of_advance {m : Machine} {ctx : Context} (hm : m.process.Stacked)
    (hsettled : ∀ frame ∈ m.process.ownFrames, frame.Settled) (hgoing : (m.advance ctx).process.isFinished = false)
    {frame' : Frame} (hframe' : frame' ∈ (m.advance ctx).process.ownFrames) : frame'.Settled := by
  cases origin_of_advance hm hgoing hframe' with
  | old hframe h => exact (hsettled _ hframe).of_bare h
  | @moved top callers i hframes hdecode hi h =>
    have htop : top ∈ m.process.ownFrames := List.mem_append_left _ (hframes ▸ List.mem_cons_self)
    exact ((hsettled top htop).after hdecode hi).of_bare h
  | new hacts h => exact h.settled

namespace Session

variable {plain : Prop} {w : Session}

theorem Reachable.stacked (hw : w.Reachable plain) {process : Process} (hprocess : process ∈ w.scheduler.pool)
    (hgoing : process.isFinished = false) : process.Stacked :=
  (hw.lacks hprocess hgoing).stacked

theorem Reachable.settled (hw : w.Reachable plain) {process : Process} (hprocess : process ∈ w.scheduler.pool)
    (hgoing : process.isFinished = false) : ∀ frame ∈ process.ownFrames, frame.Settled := by
  have hinv : process.Lacks 0 ∧ ∀ frame ∈ process.ownFrames, frame.Settled := by
    refine hw.going_invariant (P := fun process => process.Lacks 0 ∧ ∀ frame ∈ process.ownFrames, frame.Settled)
      (fun id body lobby => ⟨(Process.level_start id body lobby).lacks rfl, fun frame hframe => ?_⟩)
      (fun ctx m _ hm hgoing => ⟨Machine.advance_lacks hm.1 hgoing, fun frame hframe => ?_⟩) hprocess hgoing
    · have hframe : frame = { body, activation := lobby, receiver := lobby } := by
        simpa [Process.ownFrames, Process.start] using hframe
      exact Frame.settled_of_start (by rw [hframe]) (by rw [hframe])
    · exact Machine.settled_of_advance hm.1.stacked hm.2 hgoing hframe
  exact hinv.2

end Session

end ProtoVm
