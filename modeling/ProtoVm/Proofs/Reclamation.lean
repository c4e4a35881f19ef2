import Mathlib.Data.List.Nodup
import Mathlib.Data.List.Pairwise
import ProtoVm.Proofs.SessionSafety
import ProtoVm.Proofs.Upkeep

/-!
# Giving back the records of calls

The records of a call are live as long as its frame is in a stack. When the frame goes they are given back, once
and for all, unless the call was captured, and nothing else is ever given back.
-/

namespace ProtoVm

namespace Heap

variable {heap heap' : Heap} {object : ObjectId} {method : Method} {args : List Value} {nil lexical receiver : Value}

theorem isLive_releaseAll (heap : Heap) (ids : List ObjectId) (id : ObjectId) :
    (heap.releaseAll ids).isLive id = true ↔ heap.isLive id = true ∧ id ∉ ids := by
  unfold isLive
  rw [get?_releaseAll]
  split <;> simp [*]

/-- A call that gets no records leaves every id as it was. -/
theorem newRecords_error (tidy : heap.Tidy) {fault : Fault}
    (h : newRecords object method args nil lexical receiver heap = .error fault heap') :
    fault = .heapExhausted heap.limit ∧ ∀ id, heap'.get? id = heap.get? id := by
  have hends : Ends (newRecords object method args nil lexical receiver) heap (fun _ _ => True)
      fun fault heap' => fault = .heapExhausted heap.limit ∧ ∀ id, heap'.get? id = heap.get? id := by
    have hnone {fault : Fault} {failed : Heap} {found : Object} (herror : allocate found heap = .error fault failed) :
        fault = .heapExhausted heap.limit ∧ ∀ id, failed.get? id = heap.get? id := by
      obtain ⟨rfl, rfl⟩ := allocate_error herror
      exact ⟨rfl, fun _ => rfl⟩
    unfold newRecords
    split
    · rw [ends_bind]
      refine ends_iff.2 ⟨fun _ _ _ => trivial, fun fault failed herror => ?_⟩
      rw [newActivation_apply] at herror
      exact hnone herror
    · rw [ends_bind]
      refine ends_iff.2 ⟨fun binding middle hbinding => ?_, fun fault failed herror => ?_⟩
      · rw [ends_bind, ends_releaseOnFault]
        refine ends_iff.2 ⟨fun _ _ _ => trivial, fun fault failed herror => ?_⟩
        rw [newActivation_apply] at herror
        obtain ⟨rfl, rfl⟩ := allocate_error herror
        refine ⟨?_, get?_withdraw tidy hbinding⟩
        rw [(allocate_adds tidy hbinding).limit_eq]
      · exact hnone herror
  exact hends.of_error h

/-- The records of a call: a copy of the method object, and a binding just if the method has parameters. Both are
new. -/
theorem newRecords_ok (tidy : heap.Tidy) (hmethod : (heap.object object).shape.method? = some method)
    {records : Records} (h : newRecords object method args nil lexical receiver heap = .ok records heap') :
    (heap'.object records.activation).shape.method? = some method ∧
      records.binding.isSome = !method.params.isEmpty ∧
      ∀ id ∈ records.ids, ¬heap.Issued id ∧ heap'.isLive id = true := by
  have hactivation {middle : Heap} {id : ObjectId} {scope : Value} (htidy : middle.Tidy)
      (hsame : middle.object object = heap.object object)
      (hok : newActivation object scope receiver middle = .ok id heap') :
      middle.Adds (activationOf (middle.object object) scope receiver) id heap' ∧
        (heap'.object id).shape.method? = some method := by
    rw [newActivation_apply] at hok
    have hadds := allocate_adds htidy hok
    refine ⟨hadds, ?_⟩
    rw [object_of_get? hadds.get?_self, hsame]
    exact hmethod
  have hlive {middle : Heap} {id : ObjectId} {found : Object} (hadds : middle.Adds found id heap') :
      heap'.isLive id = true := isLive_iff.2 ⟨found, hadds.get?_self⟩
  unfold newRecords at h
  split at h
  · rename_i hparams
    cases hok : newActivation object lexical receiver heap with
    | error fault failed =>
      rw [bind_of_error hok] at h
      cases h
    | ok id heap₁ =>
      rw [bind_of_ok hok] at h
      cases h
      obtain ⟨hadds, hshape⟩ := hactivation tidy rfl hok
      refine ⟨hshape, by simp [hparams], fun other hother => ?_⟩
      rw [List.mem_singleton.1 hother]
      exact ⟨hadds.unissued, hlive hadds⟩
  · rename_i hparams
    cases hbinding : newBinding method args nil lexical heap with
    | error fault failed =>
      rw [bind_of_error hbinding] at h
      cases h
    | ok binding middle =>
      rw [bind_of_ok hbinding] at h
      have hfirst := allocate_adds tidy hbinding
      have hsame : middle.object object = heap.object object := by
        cases hget : heap.get? object with
        | none => simp [Heap.object, hget, Shape.method?] at hmethod
        | some found => rw [object_of_get? hget, object_of_get? (hfirst.get?_of_some hget)]
      cases hok : newActivation object (.ref binding) receiver middle with
      | error fault failed => simp [releaseOnFault, hok, bind, EStateM.bind] at h
      | ok id heap₂ =>
        simp only [releaseOnFault, hok, bind, EStateM.bind] at h
        cases h
        obtain ⟨hadds, hshape⟩ := hactivation hfirst.tidy hsame hok
        refine ⟨hshape, by simp [hparams], fun other hother => ?_⟩
        rcases List.mem_cons.1 hother with rfl | hother
        · exact ⟨fun hissued => hadds.unissued (hfirst.issued _ hissued), hlive hadds⟩
        · rw [List.mem_singleton.1 hother]
          exact ⟨hfirst.unissued, isLive_iff.2 ⟨_, hadds.get?_of_some hfirst.get?_self⟩⟩

end Heap

/-- A record belongs to one frame. -/
theorem Heap.Sound.frame_unique {policy : Policy} {roots : Roots} {heap : Heap} {frames : List Frame}
    (hs : heap.Sound policy roots frames) {frame frame' : Frame} {id : ObjectId} (hframe : frame ∈ frames)
    (hframe' : frame' ∈ frames) (hid : id ∈ frame.records) (hid' : id ∈ frame'.records) : frame = frame' := by
  have hnodup := (List.nodup_flatMap.1 hs.records_nodup).2
  have : Std.Symm (Function.onFun List.Disjoint fun frame : Frame => frame.records) := ⟨fun _ _ h _ hid hid' => h hid' hid⟩
  by_contra hne
  exact hnodup.forall hframe hframe' hne hid hid'

/-! ## Frames with the same records -/

/-- `frame'` is the frame of the same call. Under `marks` it may have been captured meanwhile. -/
structure Frame.Kin (marks : Prop) (frame frame' : Frame) : Prop where
  records_eq : frame'.records = frame.records
  captured : frame.captured = true → frame'.captured = true
  marked : frame'.captured = true → frame.captured = true ∨ marks

theorem Frame.mem_releasable {frame : Frame} {id : ObjectId} :
    id ∈ frame.releasable ↔ id ∈ frame.records ∧ frame.captured = false := by
  unfold Frame.releasable
  split <;> simp [*]

/-- The processes have frames of the same calls. -/
structure Process.Akin (marks : Prop) (process process' : Process) : Prop where
  forth : ∀ frame ∈ process.ownFrames, ∃ frame' ∈ process'.ownFrames, frame.Kin marks frame'
  back : ∀ frame' ∈ process'.ownFrames, ∃ frame ∈ process.ownFrames, frame.Kin marks frame'

namespace Frame

variable {marks : Prop} {frame frame' frame'' : Frame} {id : ObjectId}

theorem Kin.refl (marks : Prop) (frame : Frame) : frame.Kin marks frame := ⟨rfl, fun h => h, .inl⟩

theorem Kin.trans (h : frame.Kin marks frame') (h' : frame'.Kin marks frame'') : frame.Kin marks frame'' := by
  refine ⟨h'.records_eq.trans h.records_eq, fun hc => h'.captured (h.captured hc), fun hc => ?_⟩
  rcases h'.marked hc with hc | hmarks
  · exact h.marked hc
  · exact .inr hmarks

theorem Kin.of_bare (h : frame'.bare = frame.bare) : frame.Kin marks frame' := by
  obtain ⟨-, -, -, -, -, hrecords, hcaptured⟩ := eq_of_bare h
  exact ⟨hrecords, fun hc => hcaptured ▸ hc, fun hc => .inl (hcaptured ▸ hc)⟩

/-- What the later frame gives back, the earlier one would have given back. -/
theorem Kin.releasable (h : frame.Kin marks frame') (hid : id ∈ frame'.releasable) : id ∈ frame.releasable := by
  obtain ⟨hrecord, hcaptured⟩ := mem_releasable.1 hid
  refine mem_releasable.2 ⟨h.records_eq ▸ hrecord, Bool.eq_false_iff.2 fun hc => ?_⟩
  rw [h.captured hc] at hcaptured
  cases hcaptured

theorem Kin.releasable_of_unmarked (h : frame.Kin False frame') (hid : id ∈ frame.releasable) :
    id ∈ frame'.releasable := by
  obtain ⟨hrecord, hcaptured⟩ := mem_releasable.1 hid
  refine mem_releasable.2 ⟨h.records_eq ▸ hrecord, Bool.eq_false_iff.2 fun hc => ?_⟩
  rw [(h.marked hc).resolve_right not_false] at hcaptured
  cases hcaptured

end Frame

namespace Process

variable {marks : Prop} {process process' process'' : Process}

theorem Akin.refl (marks : Prop) (process : Process) : process.Akin marks process :=
  ⟨fun frame hframe => ⟨frame, hframe, .refl _ _⟩, fun frame hframe => ⟨frame, hframe, .refl _ _⟩⟩

theorem Akin.trans (h : process.Akin marks process') (h' : process'.Akin marks process'') :
    process.Akin marks process'' := by
  refine ⟨fun frame hframe => ?_, fun frame hframe => ?_⟩
  · obtain ⟨frame', hframe', hkin⟩ := h.forth frame hframe
    obtain ⟨frame'', hframe'', hkin'⟩ := h'.forth frame' hframe'
    exact ⟨frame'', hframe'', hkin.trans hkin'⟩
  · obtain ⟨frame', hframe', hkin⟩ := h'.back frame hframe
    obtain ⟨frame'', hframe'', hkin'⟩ := h.back frame' hframe'
    exact ⟨frame'', hframe'', hkin'.trans hkin⟩

theorem akin_of_map_bare (marks : Prop)
    (h : (process'.ownFrames.map Frame.bare).Perm (process.ownFrames.map Frame.bare)) : process.Akin marks process' := by
  refine ⟨fun frame hframe => ?_, fun frame' hframe' => ?_⟩
  · obtain ⟨frame', hframe', heq⟩ := Machine.mem_of_map_bare h.symm hframe
    exact ⟨frame', hframe', .of_bare heq.symm⟩
  · obtain ⟨frame, hframe, heq⟩ := Machine.mem_of_map_bare h hframe'
    exact ⟨frame, hframe, .of_bare heq⟩

/-- The innermost frame is replaced by another frame of its call. -/
theorem akin_modifyHead {edit : Frame → Frame} (h : ∀ frame : Frame, frame.Kin marks (edit frame)) (process : Process) :
    process.Akin marks { process with frames := process.frames.modifyHead edit } := by
  cases hframes : process.frames with
  | nil =>
    have heq : { process with frames := ([] : List Frame).modifyHead edit } = process := by
      cases process
      simp_all
    rw [heq]
    exact .refl _ _
  | cons top callers =>
    refine ⟨fun frame hframe => ?_, fun frame' hframe' => ?_⟩
    · rw [ownFrames, hframes, List.cons_append] at hframe
      rcases List.mem_cons.1 hframe with rfl | hframe
      · exact ⟨edit frame, List.mem_cons_self, h frame⟩
      · exact ⟨frame, List.mem_cons_of_mem _ hframe, .refl _ _⟩
    · rw [ownFrames, hframes, List.cons_append]
      rcases List.mem_cons.1 (show frame' ∈ edit top :: (callers ++ _) from hframe') with rfl | hframe'
      · exact ⟨top, List.mem_cons_self, h top⟩
      · exact ⟨frame', List.mem_cons_of_mem _ hframe', .refl _ _⟩

theorem akin_past (marks : Prop) (i : Instruction) (process : Process) : process.Akin marks (process.past i) := by
  have hkin (frame : Frame) : frame.Kin marks (frame.past i) := ⟨rfl, fun h => h, .inl⟩
  exact akin_modifyHead hkin process

theorem akin_after (i : Instruction) (process : Process) : process.Akin (i.makesObject = true) (process.after i) := by
  have hkin (frame : Frame) : frame.Kin (i.makesObject = true) (frame.after i) := by
    refine ⟨rfl, fun h => ?_, fun h => ?_⟩
    · simp [Frame.after, h]
    · simpa [Frame.after] using h
  exact akin_modifyHead hkin process

theorem Akin.mono {marks' : Prop} (h : process.Akin marks process') (hmarks : marks → marks') :
    process.Akin marks' process' := by
  have hkin {frame frame' : Frame} (h : frame.Kin marks frame') : frame.Kin marks' frame' :=
    ⟨h.records_eq, h.captured, fun hc => (h.marked hc).imp_right hmarks⟩
  refine ⟨fun frame hframe => ?_, fun frame hframe => ?_⟩
  · obtain ⟨frame', hframe', h⟩ := h.forth frame hframe
    exact ⟨frame', hframe', hkin h⟩
  · obtain ⟨frame', hframe', h⟩ := h.back frame hframe
    exact ⟨frame', hframe', hkin h⟩

theorem mem_ownFrames {frame : Frame} :
    frame ∈ process.ownFrames ↔ frame ∈ process.frames ∨ ∃ stack, some stack ∈ process.parked ∧ frame ∈ stack := by
  unfold ownFrames
  rw [List.mem_append, List.mem_flatMap]
  refine or_congr_right ⟨?_, ?_⟩
  · rintro ⟨stack, hstack, hframe⟩
    cases stack with
    | none => cases hframe
    | some stack => exact ⟨stack, hstack, hframe⟩
  · rintro ⟨stack, hstack, hframe⟩
    exact ⟨some stack, hstack, hframe⟩

end Process

/-! ## What an instruction gives back -/

namespace Machine

variable {bodies : Body → Prop} {m k m' : Machine} {ctx : Context} {ids : List ObjectId} {id : ObjectId}

/-- From `m` to `m'` just the objects `ids` are given back, and they are what the frames that go have to give back. -/
structure Gives (m m' : Machine) (ids : List ObjectId) : Prop where
  isLive : ∀ id, m.heap.Issued id → (m'.heap.isLive id = true ↔ m.heap.isLive id = true ∧ id ∉ ids)
  frames : ∀ frame ∈ m.process.ownFrames,
    (∃ frame' ∈ m'.process.ownFrames, frame'.records = frame.records) ∨ ∀ id ∈ frame.releasable, id ∈ ids
  own : ∀ id ∈ ids, ∃ frame ∈ m.process.ownFrames, id ∈ frame.releasable

theorem gives_of_acts (tidy : m.heap.Tidy) (hacts : Heap.Acts bodies [] m.heap m'.heap)
    (hframes : ∀ frame ∈ m.process.ownFrames, ∃ frame' ∈ m'.process.ownFrames, frame'.records = frame.records) :
    m.Gives m' [] := by
  refine ⟨fun id hid => ?_, fun frame hframe => .inl (hframes frame hframe), nofun⟩
  simp [Heap.Acts.isLive_eq hacts tidy hid]

/-- What happens before the frames go does not matter. -/
theorem Gives.of_akin (h : k.Gives m' ids) (tidy : m.heap.Tidy) (hacts : Heap.Acts bodies [] m.heap k.heap)
    (hakin : m.process.Akin False k.process) : m.Gives m' ids := by
  refine ⟨fun id hid => ?_, fun frame hframe => ?_, fun id hid => ?_⟩
  · rw [h.isLive id (Heap.Acts.issued hacts tidy hid), Heap.Acts.isLive_eq hacts tidy hid]
  · obtain ⟨found, hfound, hkin⟩ := hakin.forth frame hframe
    rw [← hkin.records_eq]
    exact (h.frames found hfound).imp_right fun hall id hid => hall id (hkin.releasable_of_unmarked hid)
  · obtain ⟨found, hfound, hid⟩ := h.own id hid
    obtain ⟨frame, hframe, hkin⟩ := hakin.back found hfound
    exact ⟨frame, hframe, hkin.releasable hid⟩

theorem Abides.akin (marks : Prop) (h : m.Abides bodies m') : m.process.Akin marks m'.process :=
  Process.akin_of_map_bare marks (.of_eq (Process.map_bare_of_bare h.process_eq))

theorem Closes.gives (h : m.Closes bodies m') (tidy : m.heap.Tidy) : ∃ ids, m.Gives m' ids := by
  obtain ⟨heap, ids, outcome, hbefore, hids, hafter, -⟩ := h
  have hmem (id : ObjectId) : id ∈ ids ↔ ∃ frame ∈ m.process.ownFrames, id ∈ frame.releasable := by
    rw [hids.mem_iff, List.mem_flatMap]
  have hreleased : Heap.Deeds bodies [] heap (heap.releaseAll ids) := heap.deeds_releaseAll ids
  have htidy : heap.Tidy := hbefore.tidy tidy
  refine ⟨ids, fun id hid => ?_, fun frame hframe => .inr fun id hid => (hmem id).2 ⟨frame, hframe, hid⟩,
    fun id hid => (hmem id).1 hid⟩
  have hissued : heap.Issued id := hbefore.issued tidy hid
  rw [hafter.isLive_eq (hreleased.tidy htidy) (hreleased.issued htidy hissued), Heap.isLive_releaseAll,
    hbefore.isLive_eq tidy hid]

theorem Goes.gives (h : m.Goes bodies m') (tidy : m.heap.Tidy) : ∃ ids, m.Gives m' ids := by
  cases h with
  | stay h =>
    refine ⟨[], gives_of_acts tidy h.acts fun frame hframe => ?_⟩
    obtain ⟨frame', hframe', hkin⟩ := (h.akin False).forth frame hframe
    exact ⟨frame', hframe', hkin.records_eq⟩
  | @call k _ frame h hframe hprocess =>
    have hacts : Heap.Acts bodies [] k.heap m'.heap := hframe.acts
    refine ⟨[], Gives.of_akin (k := k) (gives_of_acts (h.acts.tidy tidy) hacts fun found hfound => ?_) tidy h.acts
      (h.akin False)⟩
    refine ⟨found, ?_, rfl⟩
    rw [hprocess]
    exact List.mem_cons_of_mem _ hfound
  | @park k _ frame heap error h hheap hframe hprocess =>
    have hacts : Heap.Acts bodies [] k.heap m'.heap := hheap.trans hframe.acts
    refine ⟨[], Gives.of_akin (k := k) (gives_of_acts (h.acts.tidy tidy) hacts fun found hfound => ?_) tidy h.acts
      (h.akin False)⟩
    refine ⟨found, ?_, rfl⟩
    rw [hprocess]
    refine List.mem_cons_of_mem _ ((Exec.suspend_perm k.process).mem_iff.2 hfound)
  | @resume k _ index top callers value h hparked hheap hprocess =>
    refine ⟨k.process.frames.reverse.flatMap (·.releasable), Gives.of_akin (k := k) ?_ tidy h.acts (h.akin False)⟩
    refine ⟨fun id hid => by rw [hheap, Heap.isLive_releaseAll], fun frame hframe => ?_, fun id hid => ?_⟩
    · rcases Process.mem_ownFrames.1 hframe with hframe | ⟨stack, hstack, hframe⟩
      · exact .inr fun id hid => List.mem_flatMap.2 ⟨frame, List.mem_reverse.2 hframe, hid⟩
      · -- a parked frame stays parked unless its stack is the one that goes on
        refine .inl ?_
        rw [hprocess]
        obtain ⟨other, hother⟩ := List.getElem?_of_mem hstack
        by_cases hindex : index = other
        · subst hindex
          rw [hparked] at hother
          cases hother
          rcases List.mem_cons.1 hframe with rfl | hframe
          · exact ⟨frame.push value, List.mem_cons_self, rfl⟩
          · exact ⟨frame, List.mem_append_left _ (.tail _ hframe), rfl⟩
        · refine ⟨frame, Process.mem_ownFrames.2 (.inr ⟨stack, ?_, hframe⟩), rfl⟩
          refine List.mem_of_getElem? (i := other) ?_
          rw [List.getElem?_set_ne hindex, hother]
    · obtain ⟨frame, hframe, hid⟩ := List.mem_flatMap.1 hid
      exact ⟨frame, List.mem_append_left _ (List.mem_reverse.1 hframe), hid⟩
  | close h => exact h.gives tidy

theorem Passes.gives (h : m.Passes bodies m') (tidy : m.heap.Tidy) : ∃ ids, m.Gives m' ids := by
  cases h with
  | @go i _ hreads hi hmakes h =>
    cases hobject : i.makesObject with
    | true =>
      have hakin := (m.process.akin_after i).mono fun _ => trivial
      refine ⟨[], gives_of_acts tidy (hmakes hobject).acts fun frame hframe => ?_⟩
      obtain ⟨found, hfound, hkin⟩ := hakin.forth frame hframe
      obtain ⟨frame', hframe', hkin'⟩ := ((hmakes hobject).akin True).forth found hfound
      exact ⟨frame', hframe', (hkin.trans hkin').records_eq⟩
    | false =>
      obtain ⟨ids, hgives⟩ := h.gives tidy
      have hacts : Heap.Acts bodies [] m.heap (m.after i).heap := .refl
      exact ⟨ids, hgives.of_akin tidy hacts ((m.process.akin_after i).mono (by simp [hobject]))⟩
  | @back top caller callers value _ hreads hframes hheap hprocess =>
    refine ⟨top.releasable, fun id hid => by rw [hheap, Heap.isLive_releaseAll], fun frame hframe => ?_, fun id hid => ?_⟩
    · rw [hprocess]
      rw [Process.ownFrames, hframes, List.cons_append, List.cons_append] at hframe
      rcases List.mem_cons.1 hframe with rfl | hframe
      · exact .inr fun _ hid => hid
      · refine .inl ?_
        rcases List.mem_cons.1 hframe with rfl | hframe
        · exact ⟨frame.push value, List.mem_cons_self, rfl⟩
        · exact ⟨frame, List.mem_cons_of_mem _ hframe, rfl⟩
    · exact ⟨top, List.mem_append_left _ (hframes ▸ List.mem_cons_self), hid⟩
  | close hreads h => exact h.gives tidy

/-- The machine whose frames the next instruction lets go, if it lets any go: as the instruction left it when it
failed, or else as the instruction found it. -/
def atExit (ctx : Context) (m : Machine) : Machine :=
  match Exec.step ctx m with
  | .ok _ _ => m
  | .error _ failed => failed

/-- The next instruction copies an object literal. -/
def Copies (m : Machine) : Prop := ∃ index, m.Reads (.pushLiteral .object index)

theorem Reads.copies {i : Instruction} (h : m.Reads i) (hi : i.makesObject = true) : m.Copies := by
  unfold Instruction.makesObject at hi
  split at hi
  · exact ⟨_, h⟩
  · cases hi

theorem Stalls.akin {fault : Fault} (h : m.Stalls bodies fault k) : m.process.Akin m.Copies k.process := by
  cases h with
  | unread hfault h => exact Process.akin_of_map_bare _ h.frames
  | @unmarked i hreads hfault h => exact (Process.akin_past _ i m.process).trans (Process.akin_of_map_bare _ h.frames)
  | @read i hreads hi h =>
    exact ((m.process.akin_after i).mono hreads.copies).trans (Process.akin_of_map_bare _ h.frames)

/-- What an instruction does with the frames of its process and with the heap. -/
theorem advance_gives (ctx : Context) (hm : m.process.Stacked) (tidy : m.heap.Tidy) :
    Heap.Acts m.Writes [] m.heap (m.atExit ctx).heap ∧ m.process.Akin m.Copies (m.atExit ctx).process ∧
      ∃ ids, (m.atExit ctx).Gives (m.advance ctx) ids := by
  unfold atExit
  rcases advance_cases ctx hm with ⟨a, hstep, hpasses⟩ | ⟨fault, k, hstep, hstalls, hgoes, -⟩
  · rw [hstep]
    exact ⟨.refl, .refl _ _, hpasses.gives tidy⟩
  · rw [hstep]
    exact ⟨hstalls.acts, hstalls.akin, hgoes.gives (hstalls.acts.tidy tidy)⟩

theorem Sound.atExit {policy : Policy} {others : List Frame} (hs : m.Sound policy ctx.roots others) :
    (m.atExit ctx).Sound policy ctx.roots others := by
  unfold Machine.atExit
  cases hstep : Exec.step ctx m with
  | ok a m' => exact hs
  | error fault failed => exact ((Exec.keeps_step hs).of_error hstep).sound

/-! ## One instruction -/

/-- The call of the record is captured when the next instruction lets its frame go. -/
def Retains (ctx : Context) (m : Machine) (id : ObjectId) : Prop :=
  ∃ frame ∈ (m.atExit ctx).process.ownFrames, id ∈ frame.records ∧ frame.captured = true

/-- What the next instruction does with the records of calls. -/
structure Reclaims (ctx : Context) (m : Machine) : Prop where
  /-- A frame keeps its records. A new one has the copy of its method object, and a binding just if the method has
  parameters, under ids that were never in use. -/
  frames : ∀ frame' ∈ (m.advance ctx).process.ownFrames,
    (∃ frame ∈ m.process.ownFrames, frame'.records = frame.records ∧ frame'.activation = frame.activation) ∨
    ∃ (records : Records) (method : Method), frame'.activation = .ref records.activation ∧
      frame'.records = records.ids ∧ frame'.captured = false ∧ frame'.body = method.body ∧
      ((m.advance ctx).heap.object records.activation).shape.method? = some method ∧
      records.binding.isSome = !method.params.isEmpty ∧ ∀ id ∈ frame'.records, ¬m.heap.Issued id
  /-- As long as the frame is there its records are. -/
  stay : ∀ frame' ∈ (m.advance ctx).process.ownFrames, ∀ id ∈ frame'.records, (m.advance ctx).heap.isLive id = true
  /-- When the frame goes its records go, unless it is captured. -/
  leave : ∀ frame ∈ m.process.ownFrames, ∀ id ∈ frame.records,
    (∀ frame' ∈ (m.advance ctx).process.ownFrames, id ∉ frame'.records) →
      ((m.advance ctx).heap.isLive id = true ↔ m.Retains ctx id)
  /-- Nothing else goes. -/
  only : ∀ id, m.heap.isLive id = true → (m.advance ctx).heap.isLive id = false →
    (∃ frame ∈ m.process.ownFrames, id ∈ frame.records) ∧ ¬m.Retains ctx id ∧
      ∀ frame' ∈ (m.advance ctx).process.ownFrames, id ∉ frame'.records
  /-- A captured frame stays captured. -/
  captured : ∀ frame ∈ m.process.ownFrames, ∀ id ∈ frame.records, frame.captured = true → m.Retains ctx id
  /-- Only an object literal captures its frame. -/
  marked : ∀ frame ∈ m.process.ownFrames, ∀ id ∈ frame.records, m.Retains ctx id → frame.captured = true ∨ m.Copies

theorem origin_records (tidy : m.heap.Tidy) {frame' : Frame} (h : m.Origin m' frame') :
    (∃ frame ∈ m.process.ownFrames, frame'.records = frame.records ∧ frame'.activation = frame.activation ∧
      (frame.captured = true → frame'.captured = true)) ∨
    ∃ (records : Records) (method : Method), frame'.activation = .ref records.activation ∧
      frame'.records = records.ids ∧ frame'.captured = false ∧ frame'.body = method.body ∧
      (m'.heap.object records.activation).shape.method? = some method ∧
      records.binding.isSome = !method.params.isEmpty ∧ ∀ id ∈ frame'.records, ¬m.heap.Issued id := by
  cases h with
  | @old frame hframe h =>
    obtain ⟨-, -, hactivation, -, -, hrecords, hcaptured⟩ := Frame.eq_of_bare h
    exact .inl ⟨frame, hframe, hrecords, hactivation, fun hc => hcaptured ▸ hc⟩
  | @moved top callers i hframes hdecode hi h =>
    obtain ⟨-, -, hactivation, -, -, hrecords, hcaptured⟩ := Frame.eq_of_bare h
    refine .inl ⟨top, List.mem_append_left _ (hframes ▸ List.mem_cons_self), hrecords, hactivation, fun hc => ?_⟩
    rw [hcaptured]
    simp [Frame.after, hc]
  | @new kind heap hacts h =>
    obtain ⟨hmethod, hrecords, rfl⟩ := h
    obtain ⟨hshape, hbinding, hfresh⟩ := Heap.newRecords_ok (hacts.tidy tidy) hmethod hrecords
    refine .inr ⟨_, _, rfl, rfl, rfl, rfl, hshape, hbinding, fun id hid hissued => ?_⟩
    exact (hfresh id hid).1 (hacts.issued tidy hissued)

/-- One instruction gives back what it has to. -/
theorem Sound.reclaims_advance {policy : Policy} {others : List Frame} (hs : m.Sound policy ctx.roots others)
    (hm : m.process.Stacked) (hgoing : m.process.isFinished = false) : m.Reclaims ctx := by
  have tidy := hs.coherent.tidy
  have hunique {frame frame' : Frame} (hframe : frame ∈ (m.atExit ctx).process.ownFrames)
      (hframe' : frame' ∈ (m.atExit ctx).process.ownFrames) {id : ObjectId} (hid : id ∈ frame.records)
      (hid' : id ∈ frame'.records) : frame = frame' :=
    hs.atExit.frame_unique (List.mem_append_left _ hframe) (List.mem_append_left _ hframe') hid hid'
  have hafter : (m.advance ctx).Sound policy ctx.roots others := (follows_advance hs).sound
  obtain ⟨hacts, hakin, ids, hgives⟩ := advance_gives ctx hm tidy
  have hissued {frame : Frame} (hframe : frame ∈ m.process.ownFrames) {id : ObjectId} (hid : id ∈ frame.records) :
      m.heap.isLive id = true ∧ m.heap.Issued id := by
    obtain ⟨object, hget, -⟩ := (hs.activations frame (List.mem_append_left _ hframe)).records id hid
    exact ⟨Heap.isLive_iff.2 ⟨object, hget⟩, .of_get? hget⟩
  have hstay : ∀ frame' ∈ (m.advance ctx).process.ownFrames, ∀ id ∈ frame'.records,
      (m.advance ctx).heap.isLive id = true := by
    intro frame' hframe' id hid
    obtain ⟨object, hget, -⟩ := (hafter.activations frame' (List.mem_append_left _ hframe')).records id hid
    exact Heap.isLive_iff.2 ⟨object, hget⟩
  -- an object that was live is given back just if it is among `ids`
  have hlive {id : ObjectId} (hid : m.heap.Issued id) (hbefore : m.heap.isLive id = true) :
      (m.advance ctx).heap.isLive id = true ↔ id ∉ ids := by
    rw [hgives.isLive id (hacts.issued tidy hid), hacts.isLive_eq tidy hid, hbefore]
    simp
  constructor
  case frames =>
    intro frame' hframe'
    cases hdone : (m.advance ctx).process.isFinished with
    | true =>
      have hnone : m.process.outcome = none := by simpa [Process.isFinished] using hgoing
      rcases advance_finish ctx hm with heq | ⟨outcome, hprocess⟩
      · rw [Process.isFinished, heq, hnone] at hdone
        cases hdone
      · rw [hprocess] at hframe'
        cases hframe'
    | false =>
      refine (origin_records tidy (origin_of_advance hm hdone hframe')).imp_left ?_
      rintro ⟨frame, hframe, hrecords, hactivation, -⟩
      exact ⟨frame, hframe, hrecords, hactivation⟩
  case stay => exact hstay
  case leave =>
    intro frame hframe id hid hleaves
    obtain ⟨found, hfound, hkin⟩ := hakin.forth frame hframe
    rw [← hkin.records_eq] at hid
    obtain ⟨hbefore, hid'⟩ := hissued hframe (hkin.records_eq ▸ hid)
    rw [hlive hid' hbefore]
    constructor
    · intro hnot
      refine ⟨found, hfound, hid, Bool.eq_true_of_not_eq_false fun hcaptured => hnot ?_⟩
      rcases hgives.frames found hfound with ⟨frame', hframe', heq⟩ | hall
      · exact absurd (heq ▸ hid) (hleaves frame' hframe')
      · exact hall id (Frame.mem_releasable.2 ⟨hid, hcaptured⟩)
    · rintro ⟨other, hother, hrecord, hcaptured⟩ hmem
      obtain ⟨giver, hgiver, hreleasable⟩ := hgives.own id hmem
      obtain ⟨hrecord', hfree⟩ := Frame.mem_releasable.1 hreleasable
      rw [hunique hgiver hother hrecord' hrecord, hcaptured] at hfree
      cases hfree
  case only =>
    intro id hbefore hdead
    obtain ⟨object, hget⟩ := Heap.isLive_iff.1 hbefore
    have hmem : id ∈ ids := by
      by_contra hnot
      rw [(hlive (.of_get? hget) hbefore).2 hnot] at hdead
      cases hdead
    obtain ⟨giver, hgiver, hreleasable⟩ := hgives.own id hmem
    obtain ⟨hrecord, hfree⟩ := Frame.mem_releasable.1 hreleasable
    obtain ⟨frame, hframe, hkin⟩ := hakin.back giver hgiver
    refine ⟨⟨frame, hframe, hkin.records_eq ▸ hrecord⟩, ?_, fun frame' hframe' hid => ?_⟩
    · rintro ⟨other, hother, hrecord', hcaptured⟩
      rw [hunique hgiver hother hrecord hrecord', hcaptured] at hfree
      cases hfree
    · rw [hstay frame' hframe' id hid] at hdead
      cases hdead
  case captured =>
    intro frame hframe id hid hcaptured
    obtain ⟨found, hfound, hkin⟩ := hakin.forth frame hframe
    exact ⟨found, hfound, hkin.records_eq ▸ hid, hkin.captured hcaptured⟩
  case marked =>
    rintro frame hframe id hid ⟨found, hfound, hrecord, hcaptured⟩
    obtain ⟨other, hother, hkin⟩ := hakin.back found hfound
    rw [hs.frame_unique (List.mem_append_left _ hframe) (List.mem_append_left _ hother) hid (hkin.records_eq ▸ hrecord)]
    exact hkin.marked hcaptured

/-- What no frame gives back outlasts the instruction, and no frame will give it back. -/
theorem lasting_of_advance (ctx : Context) (hm : m.process.Stacked) (tidy : m.heap.Tidy)
    (hlive : m.heap.isLive id = true) (hfree : ∀ frame ∈ m.process.ownFrames, id ∉ frame.releasable) :
    (m.advance ctx).heap.isLive id = true ∧ ((m.advance ctx).process.isFinished = false →
      ∀ frame' ∈ (m.advance ctx).process.ownFrames, id ∉ frame'.releasable) := by
  obtain ⟨object, hget⟩ := Heap.isLive_iff.1 hlive
  have hissued : m.heap.Issued id := .of_get? hget
  constructor
  · obtain ⟨hacts, hakin, ids, hgives⟩ := advance_gives ctx hm tidy
    refine (hgives.isLive id (hacts.issued tidy hissued)).2 ⟨(hacts.isLive_eq tidy hissued).trans hlive, fun hid => ?_⟩
    obtain ⟨giver, hgiver, hreleasable⟩ := hgives.own id hid
    obtain ⟨frame, hframe, hkin⟩ := hakin.back giver hgiver
    exact hfree frame hframe (hkin.releasable hreleasable)
  · intro hgoing frame' hframe' hid
    obtain ⟨hrecord, hcaptured⟩ := Frame.mem_releasable.1 hid
    rcases origin_records tidy (origin_of_advance hm hgoing hframe') with
      ⟨frame, hframe, hrecords, -, hmono⟩ | ⟨records, method, -, -, -, -, -, -, hfresh⟩
    · refine hfree frame hframe (Frame.mem_releasable.2 ⟨hrecords ▸ hrecord, Bool.eq_false_iff.2 fun hc => ?_⟩)
      rw [hmono hc] at hcaptured
      cases hcaptured
    · exact hfresh id hrecord hissued

end Machine

/-! ## Calls that fail -/

/-- A call that fails brings no frame and no object. -/
theorem Exec.activate_error {ctx : Context} {object : ObjectId} {method : Method} {selector : String}
    {receiver lexical : Value} {args : List Value} {kind : FrameKind} {m k : Machine} {fault : Fault}
    (tidy : m.heap.Tidy) (h : activate ctx object method selector receiver lexical args kind m = .error fault k) :
    (fault = .arityMismatch selector method.arity args.length ∨ fault = .stackOverflow ctx.maxFrames ∨
      fault = .heapExhausted m.heap.limit) ∧ k.process = m.process ∧ ∀ id, k.heap.get? id = m.heap.get? id := by
  have hends : Ends (activate ctx object method selector receiver lexical args kind) m (fun _ _ => True)
      fun fault k => (fault = .arityMismatch selector method.arity args.length ∨ fault = .stackOverflow ctx.maxFrames ∨
        fault = .heapExhausted m.heap.limit) ∧ k.process = m.process ∧ ∀ id, k.heap.get? id = m.heap.get? id := by
    unfold activate
    split
    · exact ⟨.inl rfl, rfl, fun _ => rfl⟩
    · simp only [ends_bind, ends_get]
      split
      · exact ⟨.inr (.inl rfl), rfl, fun _ => rfl⟩
      · rw [ends_bind, ends_onHeap]
        refine ends_iff.2 ⟨fun records heap _ => trivial, fun fault heap herror => ?_⟩
        obtain ⟨hfault, hget⟩ := Heap.newRecords_error tidy herror
        exact ⟨.inr (.inr hfault), rfl, hget⟩
  exact hends.of_error h

/-! ## Sessions -/

namespace Session

variable {plain : Prop} {w w' : Session} {id : ObjectId}

/-- How the records of calls are given back from this session on. -/
structure Reclaims (plain : Prop) (w : Session) : Prop where
  /-- Each record is live and belongs to one frame. -/
  live : ∀ process ∈ w.scheduler.pool, ∀ frame ∈ process.ownFrames, ∀ id ∈ frame.records, w.heap.isLive id = true
  nodup : (w.frames.flatMap (·.records)).Nodup
  /-- A frame is captured just if it has come past an object literal. -/
  captured : ∀ process ∈ w.scheduler.pool, process.isFinished = false → ∀ frame ∈ process.ownFrames,
    frame.captured = (frame.body.code.before frame.ip).any (·.makesObject)
  instruction : ∀ process ∈ w.scheduler.pool, process.isFinished = false →
    (w.scheduler.machine process).Reclaims w.scheduler.context
  /-- Wherever an instruction comes to before it calls, a call that fails leaves nothing behind. -/
  failed : ∀ (m k : Machine) (ctx : Context) (object : ObjectId) (method : Method) (selector : String)
    (receiver lexical : Value) (args : List Value) (kind : FrameKind) (fault : Fault),
    Heap.Acts (fun _ => True) [] w.heap m.heap →
    Exec.activate ctx object method selector receiver lexical args kind m = .error fault k →
    (fault = .arityMismatch selector method.arity args.length ∨ fault = .stackOverflow ctx.maxFrames ∨
      fault = .heapExhausted m.heap.limit) ∧ k.process = m.process ∧ ∀ id, k.heap.get? id = m.heap.get? id
  /-- Whatever goes later was a record of a call that is not captured now. -/
  only : ∀ w', Relation.ReflTransGen (Step plain) w w' → ∀ id, w.heap.isLive id = true → w'.heap.isLive id = false →
    ∃ frame ∈ w.frames, id ∈ frame.records ∧ frame.captured = false
  /-- The records of a captured call stay for good. -/
  kept : ∀ w', Relation.ReflTransGen (Step plain) w w' → ∀ frame ∈ w.frames, frame.captured = true →
    ∀ id ∈ frame.records, w'.heap.isLive id = true
  /-- What has gone does not come back, and so it cannot be given back again. -/
  once : ∀ w', Relation.ReflTransGen (Step plain) w w' → ∀ id, w.heap.Issued id → w.heap.isLive id = false →
    w'.heap.isLive id = false
  free_nodup : w.heap.free.Nodup

theorem Reachable.machine_sound (hw : w.Reachable plain) {process : Process} (hprocess : process ∈ w.scheduler.pool) :
    ∃ others, (w.scheduler.machine process).Sound (w.policy plain) w.roots others := by
  obtain ⟨before, rest, hpool⟩ := List.append_of_mem hprocess
  exact ⟨_, hw.sound.toSound.machine (hpool ▸ List.perm_middle)⟩

theorem Reachable.isLive_of_later (hw : w.Reachable plain) (hlater : Relation.ReflTransGen (Step plain) w w')
    (hlive : w.heap.isLive id = true) (hfree : ∀ frame ∈ w.frames, id ∉ frame.releasable) :
    w'.heap.isLive id = true := by
  have hinv : (w'.heap.Tidy ∧ w'.heap.isLive id = true) ∧
      ∀ process ∈ w'.scheduler.pool, ∀ frame ∈ process.ownFrames, id ∉ frame.releasable := by
    induction hlater with
    | refl =>
      exact ⟨⟨hw.sound.heap.coherent.tidy, hlive⟩,
        fun process hprocess frame hframe => hfree frame (List.mem_flatMap.2 ⟨process, hprocess, hframe⟩)⟩
    | @tail v v' hrest h ih =>
      refine h.invariant (I := fun heap => heap.Tidy ∧ heap.isLive id = true)
        (J := fun process => ∀ frame ∈ process.ownFrames, id ∉ frame.releasable) (reachable_of_steps hw hrest)
        (fun hacts => ?_) (fun number body hbody => ?_) (fun ctx m hgoing hlacks hI hJ => ?_) (by simp) ih.1 ih.2
      · obtain ⟨object, hget⟩ := Heap.isLive_iff.1 ih.1.2
        exact ⟨hacts.tidy ih.1.1, (hacts.isLive_eq ih.1.1 (.of_get? hget)).trans ih.1.2⟩
      · simp [Process.start, Process.ownFrames, Frame.releasable]
      · obtain ⟨hnext, hframes⟩ := Machine.lasting_of_advance ctx hlacks.stacked hI.1 hI.2 hJ
        exact ⟨⟨(Machine.deeds_advance ctx hlacks.stacked).tidy hI.1, hnext⟩, hframes⟩
  exact hinv.1.2

theorem Reachable.gone_of_later (hw : w.Reachable plain) (hlater : Relation.ReflTransGen (Step plain) w w')
    (hissued : w.heap.Issued id) (hdead : w.heap.isLive id = false) : w'.heap.isLive id = false := by
  have hinv : w'.heap.Tidy ∧ w'.heap.Issued id ∧ w'.heap.isLive id = false := by
    induction hlater with
    | refl => exact ⟨hw.sound.heap.coherent.tidy, hissued, hdead⟩
    | @tail v v' hrest h ih =>
      refine (h.invariant (I := fun heap => heap.Tidy ∧ heap.Issued id ∧ heap.isLive id = false)
        (J := fun _ => True) (reachable_of_steps hw hrest) (fun hacts => ?_) (fun _ _ _ => trivial)
        (fun ctx m hgoing hlacks hI _ => ?_) (fun _ _ => trivial) ih fun _ _ => trivial).1
      · exact ⟨hacts.tidy ih.1, hacts.issued ih.1 ih.2.1, (hacts.isLive_eq ih.1 ih.2.1).trans ih.2.2⟩
      · have hdeeds := Machine.deeds_advance ctx hlacks.stacked
        exact ⟨⟨hdeeds.tidy hI.1, hdeeds.issued hI.1 hI.2.1, hdeeds.isLive_eq_false hI.1 hI.2.1 hI.2.2⟩,
          fun _ => trivial⟩
  exact hinv.2.2

/-- The records of a call are given back exactly once, when its frame goes and is not captured. -/
theorem reclaims (hw : w.Reachable plain) : w.Reclaims plain := by
  have hs := hw.sound
  have tidy := hs.heap.coherent.tidy
  have hlive {frame : Frame} (hframe : frame ∈ w.frames) {id : ObjectId} (hid : id ∈ frame.records) :
      w.heap.isLive id = true := by
    obtain ⟨object, hget, -⟩ := (hs.heap.activations frame hframe).records id hid
    exact Heap.isLive_iff.2 ⟨object, hget⟩
  constructor
  case live =>
    exact fun process hprocess frame hframe id hid => hlive (List.mem_flatMap.2 ⟨process, hprocess, hframe⟩) hid
  case nodup => exact hs.heap.records_nodup
  case captured =>
    exact fun process hprocess hgoing frame hframe => (hw.settled hprocess hgoing frame hframe).captured_eq
  case instruction =>
    intro process hprocess hgoing
    obtain ⟨others, hmachine⟩ := hw.machine_sound hprocess
    have hsound : (w.scheduler.machine process).Sound (w.policy plain) w.scheduler.context.roots others := hmachine
    exact hsound.reclaims_advance (hw.stacked hprocess hgoing) hgoing
  case failed =>
    intro m k ctx object method selector receiver lexical args kind fault hacts h
    exact Exec.activate_error (hacts.tidy tidy) h
  case only =>
    intro w' hlater id hbefore hdead
    by_contra hnone
    refine absurd (hw.isLive_of_later hlater hbefore fun frame hframe hid => ?_) (by simp [hdead])
    obtain ⟨hrecord, hcaptured⟩ := Frame.mem_releasable.1 hid
    exact hnone ⟨frame, hframe, hrecord, hcaptured⟩
  case kept =>
    intro w' hlater frame hframe hcaptured id hid
    refine hw.isLive_of_later hlater (hlive hframe hid) fun other hother hreleasable => ?_
    obtain ⟨hrecord, hfree⟩ := Frame.mem_releasable.1 hreleasable
    rw [hs.heap.frame_unique hother hframe hrecord hid, hcaptured] at hfree
    cases hfree
  case once => exact fun w' hlater id hissued hdead => hw.gone_of_later hlater hissued hdead
  case free_nodup => exact tidy.free_nodup

/-- A handler is about to resume the stack that it interrupted. Its own stack is discarded then, and both records of
its call go. -/
theorem reclaims_trial :
    ∃ (w : Session) (process : Process) (frame : Frame) (activation binding : ObjectId),
      w.Reachable False ∧ process ∈ w.scheduler.pool ∧ process.isFinished = false ∧ process.frames = [frame] ∧
      (∃ stack ∈ process.parked, stack.isSome) ∧ frame.records = [activation, binding] ∧ w.Reclaims False ∧
      ∀ id ∈ frame.records, w.heap.isLive id = true ∧
        ((w.scheduler.machine process).advance w.scheduler.context).heap.isLive id = false := by
  have htrial : ((trial .resume 28).any fun w => w.scheduler.pool.any fun process =>
      !process.isFinished && process.parked.any (·.isSome) && process.frames.length == 1 &&
        process.frames.all fun frame => frame.records.length == 2 && frame.records.all fun id =>
          !(((w.scheduler.machine process).advance w.scheduler.context).process.ownFrames.any (·.records.contains id)) &&
          !(((w.scheduler.machine process).atExit w.scheduler.context).process.ownFrames.any fun frame =>
            frame.records.contains id && frame.captured)) = true := by
    decide +kernel
  obtain ⟨w, hw, hcheck⟩ := (Option.any_eq_true _ _).1 htrial
  obtain ⟨process, hprocess, hcheck⟩ := List.any_eq_true.1 hcheck
  simp only [Bool.and_eq_true, Bool.not_eq_true', beq_iff_eq, List.all_eq_true, List.any_eq_false,
    List.contains_iff_mem] at hcheck
  obtain ⟨⟨⟨hgoing, hparked⟩, hone⟩, hcheck⟩ := hcheck
  have hreachable : w.Reachable False := reachable_of_trial hw
  have hreclaims := reclaims hreachable
  obtain ⟨frame, hframes⟩ := List.length_eq_one_iff.1 hone
  obtain ⟨hlength, hall⟩ := hcheck frame (hframes ▸ List.mem_cons_self)
  obtain ⟨activation, binding, hrecords⟩ := List.length_eq_two.1 hlength
  have hframe : frame ∈ process.ownFrames := List.mem_append_left _ (hframes ▸ List.mem_cons_self)
  refine ⟨w, process, frame, activation, binding, hreachable, hprocess, hgoing, hframes,
    List.any_eq_true.1 hparked, hrecords, hreclaims, fun id hid => ⟨hreclaims.live process hprocess frame hframe id hid,
      Bool.eq_false_iff.2 fun hlive => ?_⟩⟩
  have hinstruction := hreclaims.instruction process hprocess hgoing
  obtain ⟨found, hfound, hrecord, hcaptured⟩ := (hinstruction.leave frame hframe id hid (hall id hid).1).1 hlive
  exact (hall id hid).2 found hfound ⟨hrecord, hcaptured⟩

end Session

end ProtoVm
