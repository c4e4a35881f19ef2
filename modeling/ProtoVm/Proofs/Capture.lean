import ProtoVm.Proofs.Failure
import ProtoVm.Proofs.Independence
import ProtoVm.Proofs.Literals

/-!
# Calls that are captured

The records of a call outlive their frame just if the frame was marked. An object literal marks the frame in which it
is evaluated, and its copy has the call as its scope. But the mark is set before there is a copy, and a copy for which
there is no room leaves the records of its call behind for good.
-/

namespace ProtoVm

instance Heap.decidableIssued (heap : Heap) (id : ObjectId) : Decidable (heap.Issued id) :=
  decidable_of_iff (∃ cell ∈ heap.cells[id.index]?,
    id.generation < cell.generation ∨ id.generation = cell.generation ∧ cell.occupant.isSome = true) Iff.rfl

/-- The scope of an object is settled. -/
theorem Heap.Deeds.scope {bodies : Body → Prop} {copies : List Object} {heap heap' : Heap} {id : ObjectId}
    {object : Object} {scope : Option Value} (h : Deeds bodies copies heap heap') (tidy : heap.Tidy)
    (hget : heap.get? id = some object) (hscope : object.scope = scope) (hlive : heap'.isLive id = true) :
    ∃ object', heap'.get? id = some object' ∧ object'.scope = scope := by
  obtain ⟨object', hget'⟩ := isLive_iff.1 hlive
  obtain ⟨old, hold, hkept⟩ := h.settled tidy (.of_get? hget) hget'
  rw [hget] at hold
  cases hold
  exact ⟨object', hget', hkept.scope_eq.trans hscope⟩

/-- The sends of the frame begin in a record of its call, or in the lobby. -/
def Frame.Anchored (lobby : ObjectId) (frame : Frame) : Prop :=
  ∀ id, frame.activation = .ref id → id ∈ frame.records ∨ id = lobby

/-- The innermost frame of a stack is replaced. -/
theorem Process.mem_modifyHead {process : Process} {edit : Frame → Frame} {frame' : Frame}
    (h : frame' ∈ { process with frames := process.frames.modifyHead edit }.ownFrames) :
    frame' ∈ process.ownFrames ∨ ∃ top callers, process.frames = top :: callers ∧ frame' = edit top := by
  rcases List.mem_append.1 h with h | h
  · cases hframes : process.frames with
    | nil =>
      rw [hframes] at h
      cases h
    | cons top callers =>
      rw [hframes, List.modifyHead_cons] at h
      rcases List.mem_cons.1 h with rfl | h
      · exact .inr ⟨top, callers, rfl, rfl⟩
      · exact .inl (List.mem_append_left _ (hframes ▸ List.mem_cons_of_mem _ h))
  · exact .inl (List.mem_append_right _ h)

namespace Machine

variable {ctx : Context} {policy : Policy} {others : List Frame} {m k : Machine} {call id : ObjectId} {frame : Frame}

/-- A call begins with the next instruction: its frame is there then, with records that were never in use before. -/
structure Opens (ctx : Context) (m : Machine) (frame : Frame) : Prop where
  mem : frame ∈ (m.advance ctx).process.ownFrames
  records_ne_nil : frame.records ≠ []
  fresh : ∀ id ∈ frame.records, ¬m.heap.Issued id

/-- The frames of the calls that begin with the next instruction. -/
def openings (ctx : Context) (m : Machine) : List Frame :=
  (m.advance ctx).process.ownFrames.filter fun frame => frame.records ≠ [] ∧ ∀ id ∈ frame.records, ¬m.heap.Issued id

theorem mem_openings : frame ∈ m.openings ctx ↔ m.Opens ctx frame := by
  simp only [openings, List.mem_filter, decide_eq_true_eq]
  exact ⟨fun ⟨hmem, hne, hfresh⟩ => ⟨hmem, hne, hfresh⟩, fun ⟨hmem, hne, hfresh⟩ => ⟨hmem, hne, hfresh⟩⟩

/-- The next instruction evaluates an object literal in the call, and leaves the copy `id` as an operand. -/
def Captures (ctx : Context) (m : Machine) (call id : ObjectId) : Prop :=
  ∃ top callers index k stack, m.Evaluates top callers index ∧ top.activation = .ref call ∧
    Exec.step ctx m = .ok () k ∧ k.stack? = some (.ref id :: stack)

/-- The next instruction evaluates an object literal in the call, whose template is there, and finds no room for the
copy. -/
def Loses (ctx : Context) (m : Machine) (call : ObjectId) : Prop :=
  ∃ top callers index fault k, m.Evaluates top callers index ∧ top.activation = .ref call ∧
    Exec.step ctx m = .error fault k ∧ Uncopied fault k (top.literalSite index)

/-- The next instruction marks the frame of the call. -/
def Marks (ctx : Context) (m : Machine) (call : ObjectId) : Prop :=
  (∃ id, m.Captures ctx call id) ∨ m.Loses ctx call

theorem Evaluates.mem_ownFrames {top : Frame} {callers : List Frame} {index : UInt8}
    (h : m.Evaluates top callers index) : top ∈ m.process.ownFrames :=
  List.mem_append_left _ (h.frames_eq ▸ List.mem_cons_self)

theorem Marks.evaluates (h : m.Marks ctx call) :
    ∃ top callers index, m.Evaluates top callers index ∧ top.activation = .ref call := by
  rcases h with ⟨id, top, callers, index, k, stack, heval, hcall, -⟩ | ⟨top, callers, index, fault, k, heval, hcall, -⟩
  · exact ⟨top, callers, index, heval, hcall⟩
  · exact ⟨top, callers, index, heval, hcall⟩

theorem Evaluates.unique {top top' : Frame} {callers callers' : List Frame} {index index' : UInt8}
    (h : m.Evaluates top callers index) (h' : m.Evaluates top' callers' index') :
    top' = top ∧ callers' = callers ∧ index' = index := by
  obtain ⟨rfl, rfl⟩ := List.cons_eq_cons.1 (h'.frames_eq.symm.trans h.frames_eq)
  have hdecode := h'.decode_eq.symm.trans h.decode_eq
  simp only [Except.ok.injEq, Instruction.pushLiteral.injEq, true_and] at hdecode
  exact ⟨rfl, rfl, hdecode⟩

/-- An instruction that fails marks no frame but the one in which it evaluates a literal. -/
theorem Stalls.captured {bodies : Body → Prop} {fault : Fault} (h : m.Stalls bodies fault k) {frame' : Frame}
    (hframe' : frame' ∈ k.process.ownFrames) : ∃ frame ∈ m.process.ownFrames, frame'.records = frame.records ∧
      (frame'.captured = true → frame.captured = true ∨ ∃ callers index, m.Evaluates frame callers index) := by
  have hback {k' : Machine} (hfails : k'.Fails bodies fault k) : ∃ found ∈ k'.process.ownFrames,
      frame'.records = found.records ∧ frame'.captured = found.captured := by
    obtain ⟨found, hfound, hbare⟩ := mem_of_map_bare hfails.frames hframe'
    obtain ⟨-, -, -, -, -, hrecords, hcaptured⟩ := Frame.eq_of_bare hbare
    exact ⟨found, hfound, hrecords, hcaptured⟩
  cases h with
  | unread hfault h =>
    obtain ⟨frame, hframe, hrecords, hcaptured⟩ := hback h
    exact ⟨frame, hframe, hrecords, fun hc => .inl (hcaptured ▸ hc)⟩
  | @unmarked i hreads hfault h =>
    obtain ⟨found, hfound, hrecords, hcaptured⟩ := hback h
    rcases Process.mem_modifyHead hfound with hfound | ⟨top, callers, hframes, rfl⟩
    · exact ⟨found, hfound, hrecords, fun hc => .inl (hcaptured ▸ hc)⟩
    · exact ⟨top, List.mem_append_left _ (hframes ▸ List.mem_cons_self), hrecords, fun hc => .inl (hcaptured ▸ hc)⟩
  | @read i hreads hi h =>
    obtain ⟨found, hfound, hrecords, hcaptured⟩ := hback h
    rcases Process.mem_modifyHead hfound with hfound | ⟨top, callers, hframes, rfl⟩
    · exact ⟨found, hfound, hrecords, fun hc => .inl (hcaptured ▸ hc)⟩
    · refine ⟨top, List.mem_append_left _ (hframes ▸ List.mem_cons_self), hrecords, fun hc => ?_⟩
      rcases Bool.or_eq_true_iff.1 (show (top.captured || i.makesObject) = true from hcaptured.symm.trans hc) with hc | hmakes
      · exact .inl hc
      · obtain ⟨index, top', callers', hframes', hdecode⟩ := hreads.copies hmakes
        obtain ⟨rfl, rfl⟩ := List.cons_eq_cons.1 (hframes.symm.trans hframes')
        exact .inr ⟨callers, index, hframes, hdecode⟩

/-! ## One instruction -/

/-- A process that has frames after an instruction goes on. -/
theorem going_of_mem_advance (hm : m.process.Stacked) (hgoing : m.process.isFinished = false)
    (hframe : frame ∈ (m.advance ctx).process.ownFrames) : (m.advance ctx).process.isFinished = false := by
  rcases advance_finish ctx hm with heq | ⟨outcome, hprocess⟩
  · rw [Process.isFinished, heq]
    exact hgoing
  · rw [hprocess] at hframe
    cases hframe

/-- The frame of a call is there after the next instruction, and is marked then just if `marked`. Or it has gone, and its
records are live just if `marked`. -/
def Resolves (ctx : Context) (m : Machine) (frame : Frame) (marked : Prop) : Prop :=
  (∃ frame' ∈ (m.advance ctx).process.ownFrames, frame'.records = frame.records ∧
    frame'.activation = frame.activation ∧ (frame'.captured = true ↔ marked)) ∨
  ∀ id ∈ frame.records, (∀ frame' ∈ (m.advance ctx).process.ownFrames, id ∉ frame'.records) ∧
    ((m.advance ctx).heap.isLive id = true ↔ marked)

section

variable (hs : m.Sound policy ctx.roots others) (hframe : frame ∈ m.process.ownFrames)
include hs hframe

theorem Sound.eq_frame {found : Frame} (hfound : found ∈ m.process.ownFrames) (hid : id ∈ found.records)
    (hid' : id ∈ frame.records) : found = frame :=
  hs.frame_unique (List.mem_append_left _ hfound) (List.mem_append_left _ hframe) hid hid'

/-- Only its own frame can evaluate a literal in a call. -/
theorem Marks.of_frame (hanchored : ∀ frame ∈ m.process.ownFrames, frame.Anchored ctx.roots.lobby)
    (hrecord : call ∈ frame.records) (hlobby : call ≠ ctx.roots.lobby) (h : m.Marks ctx call) :
    ∃ callers index, m.Evaluates frame callers index := by
  obtain ⟨top, callers, index, heval, hcall⟩ := h.evaluates
  have htop : call ∈ top.records := (hanchored top heval.mem_ownFrames call hcall).resolve_right hlobby
  obtain rfl := hs.eq_frame hframe heval.mem_ownFrames htop hrecord
  exact ⟨callers, index, heval⟩

variable (hm : m.process.Stacked) (hgoing : m.process.isFinished = false)
include hm hgoing

/-- An instruction that evaluates no literal in the frame leaves its mark as it is. -/
theorem Sound.resolves_of_idle (hidle : ¬∃ callers index, m.Evaluates frame callers index) :
    m.Resolves ctx frame (frame.captured = true) := by
  have hreclaims := hs.reclaims_advance hm hgoing
  by_cases hstays : ∃ frame' ∈ (m.advance ctx).process.ownFrames, ∃ id ∈ frame.records, id ∈ frame'.records
  · obtain ⟨frame', hframe', id, hid, hid'⟩ := hstays
    refine .inl ⟨frame', hframe', ?_⟩
    cases origin_of_advance hm (going_of_mem_advance hm hgoing hframe') hframe' with
    | @old found hfound hbare =>
      obtain ⟨-, -, hactivation, -, -, hrecords, hcaptured⟩ := Frame.eq_of_bare hbare
      obtain rfl := hs.eq_frame hframe hfound (hrecords ▸ hid') hid
      exact ⟨hrecords, hactivation, by rw [hcaptured]⟩
    | @moved top callers i hframes hdecode hi hbare =>
      obtain ⟨-, -, hactivation, -, -, hrecords, hcaptured⟩ := Frame.eq_of_bare hbare
      have htop : top ∈ m.process.ownFrames := List.mem_append_left _ (hframes ▸ List.mem_cons_self)
      obtain rfl := hs.eq_frame hframe htop (hrecords ▸ hid') hid
      have hmakes : i.makesObject = false := Bool.eq_false_iff.2 fun hmakes => by
        obtain ⟨index, top', callers', hframes', hdecode'⟩ := Reads.copies ⟨top, callers, hframes, hdecode⟩ hmakes
        obtain ⟨rfl, rfl⟩ := List.cons_eq_cons.1 (hframes.symm.trans hframes')
        exact hidle ⟨callers, index, hframes, hdecode'⟩
      exact ⟨hrecords, hactivation, by rw [hcaptured, Frame.after, hmakes, Bool.or_false]⟩
    | @new kind heap hacts hbegins =>
      obtain ⟨object, hget, -⟩ := (hs.activations frame (List.mem_append_left _ hframe)).records id hid
      obtain ⟨hmethod, hok, rfl⟩ := hbegins
      obtain ⟨-, -, hfresh⟩ := Heap.newRecords_ok (hacts.tidy hs.coherent.tidy) hmethod hok
      exact absurd (hacts.issued hs.coherent.tidy (.of_get? hget)) (hfresh id hid').1
  · have hleaves {id : ObjectId} (hid : id ∈ frame.records) :
        ∀ frame' ∈ (m.advance ctx).process.ownFrames, id ∉ frame'.records :=
      fun frame' hframe' hid' => hstays ⟨frame', hframe', id, hid, hid'⟩
    refine .inr fun id hid => ⟨hleaves hid, ?_⟩
    rw [hreclaims.leave frame hframe id hid (hleaves hid)]
    refine ⟨?_, hreclaims.captured frame hframe id hid⟩
    rintro ⟨found, hfound, hid', hcaptured⟩
    unfold Machine.atExit at hfound
    rcases advance_cases ctx hm with ⟨a, hstep, -⟩ | ⟨fault, k, hstep, hstalls, -⟩
    · rw [hstep] at hfound
      exact hs.eq_frame hframe hfound hid' hid ▸ hcaptured
    · rw [hstep] at hfound
      obtain ⟨origin, horigin, hrecords, hmarked⟩ := hstalls.captured hfound
      obtain rfl := hs.eq_frame hframe horigin (hrecords ▸ hid') hid
      exact (hmarked hcaptured).resolve_right hidle

/-- A literal that fails ends the process. The records of its call stay just if the call had been marked before, or if
there was no room for the copy. -/
theorem Sound.resolves_of_error {callers : List Frame} {index : UInt8} {fault : Fault}
    (heval : m.Evaluates frame callers index) (hstep : Exec.step ctx m = .error fault k) :
    m.Resolves ctx frame (frame.captured = true ∨ Uncopied fault k (frame.literalSite index)) := by
  obtain ⟨hfault, hprocess⟩ := heval.of_error hstep
  have hexit : m.atExit ctx = k := by simp [Machine.atExit, hstep]
  obtain ⟨outcome, hdone⟩ := ((goes_fail m.Writes ctx fault k).2 hfault).finish
  have hnone (id : ObjectId) : ∀ frame' ∈ (m.advance ctx).process.ownFrames, id ∉ frame'.records := by
    rw [show m.advance ctx = k.fail ctx fault by simp [advance, hstep], hdone]
    exact fun frame' hframe' => absurd hframe' List.not_mem_nil
  refine .inr fun id hid => ⟨hnone id, ?_⟩
  rw [(hs.reclaims_advance hm hgoing).leave frame hframe id hid (hnone id), Retains, hexit]
  rcases hprocess with ⟨hprocess, hcopied⟩ | ⟨hprocess, huncopied⟩
  · simp only [hcopied, or_false, hprocess]
    constructor
    · rintro ⟨found, hfound, hid', hcaptured⟩
      rcases Process.mem_modifyHead hfound with hfound | ⟨top, callers', hframes, rfl⟩
      · exact hs.eq_frame hframe hfound hid' hid ▸ hcaptured
      · obtain ⟨rfl, rfl⟩ := List.cons_eq_cons.1 (heval.frames_eq.symm.trans hframes)
        exact hcaptured
    · intro hcaptured
      refine ⟨frame.past (.pushLiteral .object index), ?_, hid, hcaptured⟩
      rw [Process.past, heval.frames_eq]
      exact List.mem_cons_self
  · simp only [huncopied, or_true, iff_true, hprocess]
    refine ⟨frame.after (.pushLiteral .object index), ?_, hid, by simp [Frame.after, Instruction.makesObject]⟩
    rw [Process.after, heval.frames_eq]
    exact List.mem_cons_self

/-- A call in progress is marked just if it was marked before or if this instruction marks it. -/
theorem Sound.resolves_advance (hanchored : ∀ frame ∈ m.process.ownFrames, frame.Anchored ctx.roots.lobby)
    (hcall : frame.activation = .ref call) (hrecord : call ∈ frame.records) (hlobby : call ≠ ctx.roots.lobby) :
    m.Resolves ctx frame (frame.captured = true ∨ m.Marks ctx call) := by
  by_cases heval : ∃ callers index, m.Evaluates frame callers index
  · obtain ⟨callers, index, heval⟩ := heval
    cases hstep : Exec.step ctx m with
    | ok a k =>
      obtain ⟨kind, params, code, template, heap, id, -, -, -, hprocess⟩ := heval.of_ok hstep
      have hstack : k.stack? = some (.ref id :: frame.stack) := by
        simp only [stack?, hprocess, List.head?_cons, Option.map_some]
        rfl
      have hmarks : m.Marks ctx call := .inl ⟨id, frame, callers, index, k, frame.stack, heval, hcall, hstep, hstack⟩
      refine .inl ⟨(frame.after (.pushLiteral .object index)).push (.ref id), ?_, rfl, rfl, ?_⟩
      · rw [show m.advance ctx = k by simp [advance, hstep], hprocess]
        exact List.mem_cons_self
      · simp [hmarks, Frame.push, Frame.after, Instruction.makesObject]
    | error fault k =>
      have hmarks : m.Marks ctx call ↔ Uncopied fault k (frame.literalSite index) := by
        refine ⟨?_, fun hlost => .inr ⟨frame, callers, index, fault, k, heval, hcall, hstep, hlost⟩⟩
        rintro (⟨id, top, callers', index', k', stack, -, -, hok, -⟩ |
          ⟨top, callers', index', fault', k', heval', -, herror, hlost⟩)
        · rw [hstep] at hok
          cases hok
        · obtain ⟨rfl, rfl, rfl⟩ := heval.unique heval'
          rw [hstep] at herror
          cases herror
          exact hlost
      rw [hmarks]
      exact hs.resolves_of_error hframe hm hgoing heval hstep
  · have hmarks : ¬m.Marks ctx call := fun h => heval (h.of_frame hs hframe hanchored hrecord hlobby)
    rw [or_iff_left hmarks]
    exact hs.resolves_of_idle hframe hm hgoing heval

end

/-- What is no record of a call in progress stays as it is, and never becomes one. -/
theorem Sound.absent_advance (hs : m.Sound policy ctx.roots others) (hm : m.process.Stacked)
    (hgoing : m.process.isFinished = false) (hissued : m.heap.Issued id)
    (habsent : ∀ frame ∈ m.process.ownFrames, id ∉ frame.records) :
    (∀ frame' ∈ (m.advance ctx).process.ownFrames, id ∉ frame'.records) ∧
      (m.advance ctx).heap.isLive id = m.heap.isLive id := by
  have tidy := hs.coherent.tidy
  refine ⟨fun frame' hframe' hid => ?_, ?_⟩
  · rcases (hs.reclaims_advance hm hgoing).frames frame' hframe' with
      ⟨frame, hframe, hrecords, -⟩ | ⟨records, method, -, -, -, -, -, -, hfresh⟩
    · exact habsent frame hframe (hrecords ▸ hid)
    · exact hfresh id hid hissued
  · cases hlive : m.heap.isLive id with
    | false => exact (deeds_advance ctx hm).isLive_eq_false tidy hissued hlive
    | true =>
      exact (lasting_of_advance ctx hm tidy hlive fun frame hframe hid =>
        habsent frame hframe (Frame.mem_records_of_mem_releasable hid)).1

/-- The copy of a literal is a new object whose scope is the call. -/
theorem Captures.adds (tidy : m.heap.Tidy) (h : m.Captures ctx call id) : ¬m.heap.Issued id ∧
    (∃ object, (m.advance ctx).heap.get? id = some object ∧ object.scope = some (.ref call)) ∧
    ∀ frame' ∈ (m.advance ctx).process.ownFrames, ∃ frame ∈ m.process.ownFrames, frame'.records = frame.records := by
  obtain ⟨top, callers, index, k, stack, heval, hcall, hstep, hstack⟩ := h
  obtain ⟨kind, params, code, template, heap, copy, -, htemplate, hcopy, hprocess⟩ := heval.of_ok hstep
  have hmakes : (Heap.Rule.acts (fun _ => True) []).Governs (Heap.template (top.literalSite index) kind params code)
      m.heap := Heap.Rule.governs_template trivial kind params
  have hacts : Heap.Acts (fun _ => True) [] m.heap heap := hmakes.of_ok htemplate
  have hadds := Heap.instantiate_adds (hacts.tidy tidy) hcopy
  obtain rfl : copy = id := by
    simp only [stack?, hprocess, List.head?_cons, Option.map_some, Option.some.injEq] at hstack
    exact Value.ref.inj (List.cons_eq_cons.1 hstack).1
  rw [show m.advance ctx = k by simp [advance, hstep]]
  refine ⟨fun hissued => hadds.unissued (hacts.issued tidy hissued), ⟨_, hadds.get?_self, by rw [hcall]⟩,
    fun frame' hframe' => ?_⟩
  rw [hprocess] at hframe'
  rcases List.mem_append.1 hframe' with hframe' | hframe'
  · rcases List.mem_cons.1 hframe' with rfl | hframe'
    · exact ⟨top, heval.mem_ownFrames, rfl⟩
    · exact ⟨frame', List.mem_append_left _ (heval.frames_eq ▸ List.mem_cons_of_mem _ hframe'), rfl⟩
  · exact ⟨frame', List.mem_append_right _ hframe', rfl⟩

/-- A call that begins has an activation among its records, and was not marked yet. -/
theorem Opens.exists_call (hs : m.Sound policy ctx.roots others) (hm : m.process.Stacked)
    (hgoing : m.process.isFinished = false) (h : m.Opens ctx frame) :
    frame.captured = false ∧ ∃ call ∈ frame.records, frame.activation = .ref call := by
  rcases (hs.reclaims_advance hm hgoing).frames frame h.mem with
    ⟨old, hold, hrecords, -⟩ | ⟨records, method, hactivation, hrecords, hcaptured, -⟩
  · obtain ⟨id, hid⟩ := List.exists_mem_of_ne_nil _ h.records_ne_nil
    obtain ⟨object, hget, -⟩ := (hs.activations old (List.mem_append_left _ hold)).records id (hrecords ▸ hid)
    exact absurd (.of_get? hget) (h.fresh id hid)
  · exact ⟨hcaptured, records.activation, hrecords ▸ List.mem_cons_self, hactivation⟩

theorem Marks.issued (hs : m.Sound policy ctx.roots others) (h : m.Marks ctx call) : m.heap.Issued call := by
  obtain ⟨top, callers, index, heval, hcall⟩ := h.evaluates
  obtain ⟨hlive, -⟩ := (hs.activations top (List.mem_append_left _ heval.mem_ownFrames)).activation call hcall
  obtain ⟨object, hget⟩ := Heap.isLive_iff.1 hlive
  exact .of_get? hget

end Machine

/-! ## The account of a run -/

namespace Scheduler

variable {s s' : Scheduler} {earlier : List Machine} {p : ProcessId} {call id : ObjectId} {records : List ObjectId}
  {policy : Policy} {m : Machine} {rest : List Process}

/-- What has become of a call of the process `p`, after the `earlier` moments. -/
inductive Fate (earlier : List Machine) (s : Scheduler) (p : ProcessId) (call : ObjectId)
    (records : List ObjectId) : Prop
  | running {process : Process} {frame : Frame} (hprocess : process ∈ s.pool) (hid : process.id = p)
      (hframe : frame ∈ process.ownFrames) (hactivation : frame.activation = .ref call)
      (hrecords : frame.records = records)
      (hcaptured : frame.captured = true ↔ ∃ k ∈ earlier, k.Marks s.context call)
  | gone (hissued : ∀ id ∈ records, s.heap.Issued id) (habsent : ∀ id ∈ records, ∀ frame ∈ s.frames, id ∉ frame.records)
      (hlive : ∀ id ∈ records, s.heap.isLive id = true ↔ ∃ k ∈ earlier, k.Marks s.context call)
  | removed (hid : ∀ process ∈ s.pool, process.id ≠ p) (houtcome : s.outcomes[p]? = some none)

/-- The calls that began and the objects that were copied at the `earlier` moments are accounted for. -/
structure Account (earlier : List Machine) (s : Scheduler) : Prop where
  anchored : ∀ frame ∈ s.frames, frame.Anchored s.roots.lobby
  issued : ∀ k ∈ earlier, ∀ call, k.Marks s.context call → s.heap.Issued call
  fate : ∀ k ∈ earlier, ∀ frame, k.Opens s.context frame → ∃ call ∈ frame.records,
    frame.activation = .ref call ∧ call ≠ s.roots.lobby ∧ s.Fate earlier k.process.id call frame.records
  copied : ∀ k ∈ earlier, ∀ call id, k.Captures s.context call id →
    (∃ object, s.heap.get? id = some object ∧ object.scope = some (.ref call)) ∧
      ∀ frame ∈ s.frames, id ∉ frame.records

/-- The scheduler while a process has its turn and the others wait. -/
def amid (s : Scheduler) (m : Machine) (rest : List Process) : Scheduler :=
  { s with heap := m.heap, pool := m.process :: rest }

theorem exists_marks_append (ctx : Context) : (∃ k ∈ earlier ++ [m], k.Marks ctx call) ↔
    (∃ k ∈ earlier, k.Marks ctx call) ∨ m.Marks ctx call := by
  simp [or_and_right, exists_or]

section

variable (hs : m.Sound policy s.roots (rest.flatMap (·.ownFrames))) (hm : m.process.Stacked)
  (hgoing : m.process.isFinished = false)
include hs hm hgoing

/-- What is no record stays none and stays as it is. -/
theorem absent_of_advance (hissued : m.heap.Issued id) (habsent : ∀ frame ∈ (s.amid m rest).frames, id ∉ frame.records) :
    (∀ frame ∈ (s.amid (m.advance s.context) rest).frames, id ∉ frame.records) ∧
      (m.advance s.context).heap.isLive id = m.heap.isLive id := by
  have hsound : m.Sound policy s.context.roots (rest.flatMap (·.ownFrames)) := hs
  obtain ⟨hframes, hlive⟩ := hsound.absent_advance hm hgoing hissued fun frame hframe =>
    habsent frame (List.mem_append_left _ hframe)
  refine ⟨fun frame hframe => ?_, hlive⟩
  rcases List.mem_append.1 hframe with hframe | hframe
  · exact hframes frame hframe
  · exact habsent frame (List.mem_append_right _ hframe)

theorem Fate.advance (hanchored : ∀ frame ∈ (s.amid m rest).frames, frame.Anchored s.roots.lobby)
    (hrecord : call ∈ records) (hlobby : call ≠ s.roots.lobby) (h : (s.amid m rest).Fate earlier p call records) :
    (s.amid (m.advance s.context) rest).Fate (earlier ++ [m]) p call records := by
  have hsound : m.Sound policy s.context.roots (rest.flatMap (·.ownFrames)) := hs
  have hown : ∀ frame ∈ m.process.ownFrames, frame.Anchored s.context.roots.lobby :=
    fun frame hframe => hanchored frame (List.mem_append_left _ hframe)
  have hid_eq : (m.advance s.context).process.id = m.process.id := (Machine.follows_advance hsound).id_eq
  -- a call without a frame in the running process is not marked
  have hunmarked (habsent : ∀ frame ∈ m.process.ownFrames, call ∉ frame.records) : ¬m.Marks s.context call := by
    intro hmarks
    obtain ⟨top, callers, index, heval, hcall⟩ := hmarks.evaluates
    exact habsent top heval.mem_ownFrames ((hown top heval.mem_ownFrames call hcall).resolve_right hlobby)
  cases h with
  | @running process frame hprocess hid hframe hactivation hrecords hcaptured =>
    subst hrecords
    rcases List.mem_cons.1 hprocess with rfl | hprocess
    · rcases hsound.resolves_advance hframe hm hgoing hown hactivation hrecord hlobby with
        ⟨frame', hframe', hrecords', hactivation', hcaptured'⟩ | hgone
      · refine .running (List.mem_cons_self) (hid_eq.trans hid) hframe' (hactivation'.trans hactivation) hrecords' ?_
        rw [hcaptured', hcaptured]
        exact (exists_marks_append s.context).symm
      · refine .gone (fun id hid => ?_) (fun id hid other hother hid' => ?_) fun id hid => ?_
        · obtain ⟨object, hget, -⟩ := (hs.activations frame (List.mem_append_left _ hframe)).records id hid
          exact (Machine.deeds_advance s.context hm).issued hs.coherent.tidy (.of_get? hget)
        · rcases List.mem_append.1 hother with hother | hother
          · exact (hgone id hid).1 other hother hid'
          · -- a record of this process is none of another one
            have hnodup := hs.records_nodup
            rw [List.flatMap_append] at hnodup
            exact List.disjoint_of_nodup_append hnodup (List.mem_flatMap.2 ⟨frame, hframe, hid⟩)
              (List.mem_flatMap.2 ⟨other, hother, hid'⟩)
        · refine (hgone id hid).2.trans ?_
          rw [hcaptured]
          exact (exists_marks_append s.context).symm
    · refine .running (List.mem_cons_of_mem _ hprocess) hid hframe hactivation rfl (hcaptured.trans ?_)
      refine (or_iff_left (hunmarked fun other hother hid' => ?_)).symm.trans (exists_marks_append s.context).symm
      have hnodup := hs.records_nodup
      rw [List.flatMap_append] at hnodup
      exact List.disjoint_of_nodup_append hnodup (List.mem_flatMap.2 ⟨other, hother, hid'⟩)
        (List.mem_flatMap.2 ⟨frame, List.mem_flatMap.2 ⟨process, hprocess, hframe⟩, hrecord⟩)
  | gone hissued habsent hlive =>
    have hkept {id : ObjectId} (hid : id ∈ records) := absent_of_advance hs hm hgoing (hissued id hid) (habsent id hid)
    refine .gone (fun id hid => ?_) (fun id hid => (hkept hid).1) fun id hid => ?_
    · exact (Machine.deeds_advance s.context hm).issued hs.coherent.tidy (hissued id hid)
    · rw [show (s.amid (m.advance s.context) rest).heap.isLive id = m.heap.isLive id from (hkept hid).2]
      refine (hlive id hid).trans ((or_iff_left (hunmarked fun frame hframe => ?_)).symm.trans
        (exists_marks_append s.context).symm)
      exact habsent call hrecord frame (List.mem_append_left _ hframe)
  | removed hid houtcome =>
    refine .removed (fun process hprocess => ?_) houtcome
    rcases List.mem_cons.1 hprocess with rfl | hprocess
    · rw [hid_eq]
      exact hid m.process List.mem_cons_self
    · exact hid process (List.mem_cons_of_mem _ hprocess)

theorem Account.advance (h : (s.amid m rest).Account earlier) :
    (s.amid (m.advance s.context) rest).Account (earlier ++ [m]) := by
  have hsound : m.Sound policy s.context.roots (rest.flatMap (·.ownFrames)) := hs
  have tidy := hs.coherent.tidy
  have hdeeds := Machine.deeds_advance s.context hm
  have hissued {frame : Frame} (hframe : frame ∈ (s.amid m rest).frames) {id : ObjectId} (hid : id ∈ frame.records) :
      m.heap.Issued id := by
    obtain ⟨object, hget, -⟩ := (hs.activations frame hframe).records id hid
    exact .of_get? hget
  constructor
  case anchored =>
    intro frame' hframe' id hactivation
    rcases List.mem_append.1 hframe' with hframe' | hframe'
    · rcases (hsound.reclaims_advance hm hgoing).frames frame' hframe' with
        ⟨frame, hframe, hrecords, hactivation'⟩ | ⟨records, method, hactivation', hrecords, -⟩
      · rw [hrecords]
        exact h.anchored frame (List.mem_append_left _ hframe) id (hactivation' ▸ hactivation)
      · rw [hactivation'] at hactivation
        cases hactivation
        exact .inl (hrecords ▸ List.mem_cons_self)
    · exact h.anchored frame' (List.mem_append_right _ hframe') id hactivation
  case issued =>
    intro k hk call hmarks
    refine hdeeds.issued tidy ?_
    rcases List.mem_append.1 hk with hk | hk
    · exact h.issued k hk call hmarks
    · rw [List.mem_singleton.1 hk] at hmarks
      exact hmarks.issued hsound
  case fate =>
    intro k hk frame hopens
    rcases List.mem_append.1 hk with hk | hk
    · obtain ⟨call, hcall, hactivation, hlobby, hfate⟩ := h.fate k hk frame hopens
      exact ⟨call, hcall, hactivation, hlobby, hfate.advance hs hm hgoing h.anchored hcall hlobby⟩
    · rw [List.mem_singleton.1 hk] at hopens ⊢
      have hopens : m.Opens s.context frame := hopens
      obtain ⟨hcaptured, call, hcall, hactivation⟩ := hopens.exists_call hsound hm hgoing
      refine ⟨call, hcall, hactivation, ?_, ?_⟩
      · rintro rfl
        have hroot : s.roots.lobby ∈ m.heap.anchors s.roots := by simp [Heap.anchors, Roots.ids]
        obtain ⟨object, hget⟩ := Heap.isLive_iff.1 (hs.anchors _ hroot).isLive
        exact hopens.fresh _ hcall (.of_get? hget)
      · refine .running List.mem_cons_self (Machine.follows_advance hsound).id_eq hopens.mem hactivation rfl ?_
        rw [hcaptured]
        refine ⟨fun hfalse => absurd hfalse Bool.false_ne_true, fun hmarks => absurd ?_ (hopens.fresh call hcall)⟩
        rcases (exists_marks_append s.context).1 hmarks with ⟨k, hk, hmarks⟩ | hmarks
        · exact h.issued k hk call hmarks
        · exact hmarks.issued hsound
  case copied =>
    intro k hk call id hcaptures
    rcases List.mem_append.1 hk with hk | hk
    · obtain ⟨⟨object, hget, hscope⟩, habsent⟩ := h.copied k hk call id hcaptures
      obtain ⟨habsent', hlive⟩ := absent_of_advance hs hm hgoing (.of_get? hget) habsent
      exact ⟨hdeeds.scope tidy hget hscope (hlive.trans (Heap.isLive_iff.2 ⟨object, hget⟩)), habsent'⟩
    · rw [List.mem_singleton.1 hk] at hcaptures
      obtain ⟨hfresh, hobject, hframes⟩ := Machine.Captures.adds tidy hcaptures
      refine ⟨hobject, fun frame' hframe' hid => hfresh ?_⟩
      rcases List.mem_append.1 hframe' with hframe' | hframe'
      · obtain ⟨frame, hframe, hrecords⟩ := hframes frame' hframe'
        exact hissued (List.mem_append_left _ hframe) (hrecords ▸ hid)
      · exact hissued (List.mem_append_right _ hframe') hid

end

/-- The account is kept through a turn. -/
theorem Account.run (hs : m.Sound policy s.roots (rest.flatMap (·.ownFrames)))
    (hlacks : m.process.isFinished = false → m.process.Lacks 0) (h : (s.amid m rest).Account earlier) (budget : Nat) :
    (s.amid (m.run s.context budget) rest).Account (earlier ++ m.moments s.context budget) := by
  induction budget generalizing m earlier with
  | zero => simpa [Machine.run, Machine.moments] using h
  | succ budget ih =>
    cases hgoing : m.process.isFinished with
    | true => simpa [Machine.run, Machine.moments, hgoing] using h
    | false =>
      have hsound : m.Sound policy s.context.roots (rest.flatMap (·.ownFrames)) := hs
      have hnext := ih (Machine.follows_advance hsound).sound (Machine.advance_lacks (hlacks hgoing))
        (h.advance hs (hlacks hgoing).stacked hgoing)
      simpa [Machine.run, Machine.moments, hgoing] using hnext

/-- The user acts and may add processes. -/
theorem Account.acts {bodies : Body → Prop} {copies : List Object} (tidy : s.heap.Tidy) (h : s.Account earlier)
    (hcontext : s'.context = s.context) (hacts : Heap.Acts bodies copies s.heap s'.heap)
    (hkept : ∀ process ∈ s.pool, process ∈ s'.pool)
    (hpool : ∀ process ∈ s'.pool, process ∈ s.pool ∨ s.outcomes.size ≤ process.id ∧
      ∀ frame ∈ process.ownFrames, frame.records = [] ∧ frame.activation = .ref s.roots.lobby)
    (houtcomes : ∀ p, (∀ process ∈ s.pool, process.id ≠ p) → s.outcomes[p]? = some none → s'.outcomes[p]? = some none) :
    s'.Account earlier := by
  have hroots : s'.roots = s.roots := congrArg Context.roots hcontext
  have hframes {frame : Frame} (hframe : frame ∈ s'.frames) :
      frame ∈ s.frames ∨ frame.records = [] ∧ frame.activation = .ref s.roots.lobby := by
    obtain ⟨process, hprocess, hframe⟩ := List.mem_flatMap.1 hframe
    exact (hpool process hprocess).imp (fun hold => List.mem_flatMap.2 ⟨process, hold, hframe⟩) fun hnew =>
      hnew.2 frame hframe
  have habsent {id : ObjectId} (habsent : ∀ frame ∈ s.frames, id ∉ frame.records) :
      ∀ frame ∈ s'.frames, id ∉ frame.records := by
    intro frame hframe hid
    rcases hframes hframe with hold | ⟨hnone, -⟩
    · exact habsent frame hold hid
    · rw [hnone] at hid
      cases hid
  constructor
  case anchored =>
    intro frame hframe
    rw [hroots]
    rcases hframes hframe with hold | ⟨-, hactivation⟩
    · exact h.anchored frame hold
    · intro id hid
      rw [hactivation] at hid
      cases hid
      exact .inr rfl
  case issued =>
    rw [hcontext]
    exact fun k hk call hmarks => hacts.issued tidy (h.issued k hk call hmarks)
  case fate =>
    intro k hk frame hopens
    rw [hcontext] at hopens
    obtain ⟨call, hcall, hactivation, hlobby, hfate⟩ := h.fate k hk frame hopens
    refine ⟨call, hcall, hactivation, hroots ▸ hlobby, ?_⟩
    cases hfate with
    | running hprocess hid hframe hactivation hrecords hcaptured =>
      exact .running (hkept _ hprocess) hid hframe hactivation hrecords (hcontext ▸ hcaptured)
    | gone hissued hnone hlive =>
      refine .gone (fun id hid => hacts.issued tidy (hissued id hid)) (fun id hid => habsent (hnone id hid)) ?_
      intro id hid
      rw [hacts.isLive_eq tidy (hissued id hid), hcontext]
      exact hlive id hid
    | removed hid houtcome =>
      refine .removed (fun process hprocess => ?_) (houtcomes _ hid houtcome)
      rcases hpool process hprocess with hold | ⟨hsize, -⟩
      · exact hid process hold
      · intro heq
        rw [heq] at hsize
        exact absurd (Array.getElem?_eq_some_iff.1 houtcome).1 (Nat.not_lt.2 hsize)
  case copied =>
    intro k hk call id hcaptures
    rw [hcontext] at hcaptures
    obtain ⟨⟨object, hget, hscope⟩, hnone⟩ := h.copied k hk call id hcaptures
    have hlive := (hacts.isLive_eq tidy (.of_get? hget)).trans (Heap.isLive_iff.2 ⟨object, hget⟩)
    exact ⟨hacts.deeds.scope tidy hget hscope hlive, habsent hnone⟩

/-- Processes leave the pool. Those that had ended have no calls any more, and the others never end. -/
theorem Account.leave (hr : s.Registered) (hended : ∀ process ∈ s.pool, process.isFinished = true → process.ownFrames = [])
    (h : s.Account earlier) {pool : List Process} (hpool : pool.Sublist s.pool) (journal : List Event) :
    { s with pool, journal }.Account earlier := by
  have hframes : ∀ frame ∈ pool.flatMap (·.ownFrames), frame ∈ s.frames := by
    intro frame hframe
    obtain ⟨process, hprocess, hframe⟩ := List.mem_flatMap.1 hframe
    exact List.mem_flatMap.2 ⟨process, hpool.subset hprocess, hframe⟩
  refine ⟨fun frame hframe => h.anchored frame (hframes frame hframe), h.issued, fun k hk frame hopens => ?_,
    fun k hk call id hcaptures => ?_⟩
  · obtain ⟨call, hcall, hactivation, hlobby, hfate⟩ := h.fate k hk frame hopens
    refine ⟨call, hcall, hactivation, hlobby, ?_⟩
    cases hfate with
    | @running process frame hprocess hid hframe hactivation hrecords hcaptured =>
      by_cases hstays : process ∈ pool
      · exact .running hstays hid hframe hactivation hrecords hcaptured
      · refine .removed (fun other hother hother' => hstays ?_) ?_
        · have hsame : other = process :=
            List.inj_on_of_nodup_map hr.nodup (hpool.subset hother) hprocess (hother'.trans hid.symm)
          exact hsame ▸ hother
        · rw [← hid]
          refine (hr.outcome_eq process hprocess).trans (congrArg some ?_)
          by_contra hsome
          rw [hended process hprocess (Option.isSome_iff_ne_none.2 hsome)] at hframe
          cases hframe
    | gone hissued hnone hlive =>
      exact .gone hissued (fun id hid frame hframe => hnone id hid frame (hframes frame hframe)) hlive
    | removed hid houtcome => exact .removed (fun process hprocess => hid process (hpool.subset hprocess)) houtcome
  · obtain ⟨hobject, hnone⟩ := h.copied k hk call id hcaptures
    exact ⟨hobject, fun frame hframe => hnone frame (hframes frame hframe)⟩

theorem account_of_create {config : Config} {maxObjects : Nat} (h : create config maxObjects = .ok s) :
    s.Account [] := by
  unfold create at h
  split at h
  · cases h
    exact ⟨by simp [frames], by simp, by simp, by simp⟩
  · cases h

end Scheduler

/-! ## Sessions -/

namespace Session

variable {plain : Prop} {w : Session} {action : Action} {actions : List Action} {earlier : List Machine}

/-- The machine before each instruction that an action carries out. -/
def moments (w : Session) : Action → List Machine
  | .run limit =>
    match w.scheduler.pool with
    | process :: _ => (w.scheduler.machine process).moments w.scheduler.context (w.scheduler.budget limit)
    | [] => []
  | .tick index =>
    match w.scheduler.pool[index]? with
    | some process => (w.scheduler.machine process).moments w.scheduler.context 1
    | none => []
  | .request _ | .learn _ | .copy _ | .load _ | .add _ | .remove _ | .note _ => []

/-- The machine before each instruction of a history. -/
def momentsAll : Session → List Action → List Machine
  | _, [] => []
  | w, action :: rest => w.moments action ++ (w.after action).momentsAll rest

theorem context_after (w : Session) (action : Action) : (w.after action).scheduler.context = w.scheduler.context := by
  have hturns {s s' : Scheduler} (h : s.Turns s') : s'.context = s.context := by
    cases h <;> rfl
  cases action with
  | request r =>
    simp only [after, perform]
    split <;> rfl
  | learn | copy | load | note => rfl
  | add unit =>
    simp only [after]
    split <;> rfl
  | remove id => exact hturns (w.scheduler.turns_removeProcess id)
  | run limit => exact hturns (w.scheduler.turns_runOnce limit)
  | tick index => exact hturns (w.scheduler.turns_tick index)

theorem context_afterAll (w : Session) (actions : List Action) :
    (w.afterAll actions).scheduler.context = w.scheduler.context := by
  induction actions generalizing w with
  | nil => rfl
  | cons action actions ih => exact (ih (w.after action)).trans (w.context_after action)

/-- The account is kept through the turn of a process. -/
theorem Reachable.account_turn (hw : w.Reachable plain) (h : w.scheduler.Account earlier) {process : Process}
    {rest pool : List Process} (hpool : w.scheduler.pool.Perm (process :: rest)) (budget : Nat) (journal : List Event)
    (hpool' : pool.Perm (((w.scheduler.machine process).run w.scheduler.context budget).process :: rest)) :
    Scheduler.Account (earlier ++ (w.scheduler.machine process).moments w.scheduler.context budget)
      { w.scheduler with
        heap := ((w.scheduler.machine process).run w.scheduler.context budget).heap
        pool
        outcomes := w.scheduler.outcomes.setIfInBounds
          ((w.scheduler.machine process).run w.scheduler.context budget).process.id
          ((w.scheduler.machine process).run w.scheduler.context budget).process.outcome
        journal } := by
  have hprocess : process ∈ w.scheduler.pool := hpool.mem_iff.2 List.mem_cons_self
  have hs := hw.sound.toSound.machine hpool
  have hsound : (w.scheduler.machine process).Sound (w.policy plain) w.scheduler.context.roots _ := hs
  have hrefl {heap : Heap} : Heap.Acts w.Has w.copies heap heap := .refl
  have hbegin : (w.scheduler.amid (w.scheduler.machine process) rest).Account earlier :=
    h.acts hw.sound.heap.coherent.tidy rfl hrefl (fun _ => hpool.mem_iff.1)
      (fun _ hmem => .inl (hpool.mem_iff.2 hmem)) fun _ _ houtcome => houtcome
  have hrun := hbegin.run hs (hw.lacks hprocess) budget
  have hfollows := Machine.follows_run budget hsound
  refine hrun.acts hfollows.sound.coherent.tidy rfl hrefl (fun _ => hpool'.mem_iff.2)
    (fun _ hmem => .inl (hpool'.mem_iff.1 hmem)) fun p hid houtcome => ?_
  show (w.scheduler.outcomes.setIfInBounds _ _)[p]? = _
  rw [Array.getElem?_setIfInBounds_ne (hid _ List.mem_cons_self)]
  exact houtcome

theorem Reachable.account_leave (hw : w.Reachable plain) (h : w.scheduler.Account earlier) {pool : List Process}
    (hpool : pool.Sublist w.scheduler.pool) (journal : List Event) :
    { w.scheduler with pool, journal }.Account earlier := by
  refine h.leave hw.registered (fun process hprocess hdone => ?_) hpool journal
  obtain ⟨hframes, hparked⟩ := (hw.upright process hprocess).2 hdone
  simp [Process.ownFrames, hframes, hparked]

theorem Reachable.account_run (hw : w.Reachable plain) (h : w.scheduler.Account earlier) (limit : Nat) :
    (w.after (.run limit)).scheduler.Account (earlier ++ w.moments (.run limit)) := by
  cases hpool : w.scheduler.pool with
  | nil => simpa [after, moments, Scheduler.runOnce, hpool] using h
  | cons process rest =>
    simp only [after, moments, Scheduler.runOnce, hpool]
    split
    · rename_i hdone
      rw [Machine.moments_of_isFinished hdone, List.append_nil]
      exact hw.account_leave h (hpool ▸ List.sublist_cons_self process rest) _
    · exact hw.account_turn h (.of_eq hpool) (w.scheduler.budget limit) _ (List.perm_append_singleton _ _)

theorem Reachable.account_tick (hw : w.Reachable plain) (h : w.scheduler.Account earlier) (index : Nat) :
    (w.after (.tick index)).scheduler.Account (earlier ++ w.moments (.tick index)) := by
  cases hprocess : w.scheduler.pool[index]? with
  | none => simpa [after, moments, Scheduler.tick, hprocess] using h
  | some process =>
    simp only [after, moments, Scheduler.tick, hprocess]
    split
    · rename_i hdone
      rw [Machine.moments_of_isFinished hdone, List.append_nil]
      exact h
    · rename_i hgoing
      obtain ⟨hindex, rfl⟩ := List.getElem?_eq_some_iff.1 hprocess
      have hturn := hw.account_turn h (List.getElem_cons_eraseIdx_perm hindex).symm 1
        ((w.scheduler.machine w.scheduler.pool[index]).run w.scheduler.context 1).journal
        (List.set_perm_cons_eraseIdx hindex _)
      rw [show (w.scheduler.machine w.scheduler.pool[index]).run w.scheduler.context 1 =
        (w.scheduler.machine w.scheduler.pool[index]).advance w.scheduler.context from if_neg hgoing] at hturn
      exact hturn

theorem Reachable.account_after (hw : w.Reachable plain) (h : w.scheduler.Account earlier)
    (hpermits : w.Permits plain action) : (w.after action).scheduler.Account (earlier ++ w.moments action) := by
  have tidy := hw.sound.heap.coherent.tidy
  -- acts of the user, by which the pool stays as it is
  have hacts {s : Scheduler} (hcontext : s.context = w.scheduler.context)
      (hacts : Heap.Acts w.Has w.copies w.heap s.heap) (hpool : s.pool = w.scheduler.pool)
      (houtcomes : s.outcomes = w.scheduler.outcomes) : s.Account (earlier ++ []) := by
    rw [List.append_nil]
    exact h.acts tidy hcontext hacts (fun _ => hpool ▸ id) (fun _ hmem => .inl (hpool ▸ hmem))
      fun _ _ houtcome => houtcomes ▸ houtcome
  cases action with
  | request r =>
    have hperform : (w.perform r).scheduler.pool = w.scheduler.pool ∧
        (w.perform r).scheduler.outcomes = w.scheduler.outcomes := by
      unfold perform
      split <;> exact ⟨rfl, rfl⟩
    exact hacts (w.context_after (.request r)) (acts_perform hpermits) hperform.1 hperform.2
  | learn | copy | note => exact hacts rfl .refl rfl rfl
  | load code => exact hacts rfl (.single (.aside rfl rfl rfl (Nat.le_succ _))) rfl rfl
  | add unit =>
    simp only [after, moments, List.append_nil]
    split
    · rename_i body hbody
      have hrefl : Heap.Acts w.Has w.copies w.heap w.heap := .refl
      refine h.acts tidy rfl hrefl (fun _ => List.mem_append_left _)
        (fun process hprocess => ?_) fun p hid houtcome => ?_
      · refine (List.mem_append.1 hprocess).imp_right fun hnew => ?_
        rw [List.mem_singleton.1 hnew]
        exact ⟨Nat.le_refl _, by simp [Process.start, Process.ownFrames]⟩
      · show (w.scheduler.outcomes.push none)[p]? = _
        have hbound := (Array.getElem?_eq_some_iff.1 houtcome).1
        rw [Array.getElem?_push_lt hbound, ← Array.getElem?_eq_getElem hbound]
        exact houtcome
    · exact h
  | remove id =>
    simp only [after, moments, List.append_nil, Scheduler.removeProcess]
    split
    · exact hw.account_leave h List.eraseP_sublist _
    · exact h
  | run limit => exact hw.account_run h limit
  | tick index => exact hw.account_tick h index

theorem Reachable.account_afterAll (hw : w.Reachable plain) (h : w.scheduler.Account earlier)
    (hpermits : w.PermitsAll plain actions) :
    (w.afterAll actions).scheduler.Account (earlier ++ w.momentsAll actions) := by
  induction actions generalizing w earlier with
  | nil => simpa [momentsAll, afterAll] using h
  | cons action actions ih =>
    rw [momentsAll, ← List.append_assoc]
    exact ih (hw.step hpermits.1.step) (hw.account_after h hpermits.1) hpermits.2

/-- If the call is live then it is the scope of a live object, which was copied from an object literal in this call. -/
def Justifies (w : Session) (moments : List Machine) (call : ObjectId) : Prop :=
  w.heap.isLive call = true → ∃ k ∈ moments, ∃ id object, k.Captures w.scheduler.context call id ∧
    w.heap.get? id = some object ∧ object.scope = some (.ref call)

/-- What a process has left of its calls when it has ended. The objects that were copied in a call are live and have
it as their scope. The records of the call are live just if there is such an object, or if there was no room for one.
So a call that is live is justified unless all its copies failed. -/
theorem justifies_iff_of_ended {config : Config} {maxObjects : Nat} {s : Scheduler}
    (hs : Scheduler.create config maxObjects = .ok s) (hpermits : PermitsAll plain { scheduler := s } actions)
    {m : Machine} {frame : Frame} (hm : m ∈ momentsAll { scheduler := s } actions) (hopens : m.Opens s.context frame)
    {outcome : Outcome}
    (hended : (afterAll { scheduler := s } actions).scheduler.outcomes[m.process.id]? = some (some outcome)) :
    let w := afterAll { scheduler := s } actions
    let moments := momentsAll { scheduler := s } actions
    ∃ call ∈ frame.records, frame.activation = .ref call ∧
      (∀ k ∈ moments, ∀ id, k.Captures s.context call id →
        ∃ object, w.heap.get? id = some object ∧ object.scope = some (.ref call)) ∧
      (∀ id ∈ frame.records, w.heap.isLive id = true ↔
        (∃ k ∈ moments, ∃ id, k.Captures s.context call id) ∨ ∃ k ∈ moments, k.Loses s.context call) ∧
      (w.Justifies moments call ↔
        (∃ k ∈ moments, ∃ id, k.Captures s.context call id) ∨ ∀ k ∈ moments, ¬k.Loses s.context call) := by
  intro w moments
  have hstart : Reachable plain { scheduler := s } := .start hs
  have hw : w.Reachable plain := hpermits.reachable hstart
  have hcontext : w.scheduler.context = s.context := context_afterAll _ _
  have haccount : w.scheduler.Account moments := hstart.account_afterAll (Scheduler.account_of_create hs) hpermits
  obtain ⟨call, hcall, hactivation, -, hfate⟩ := haccount.fate m hm frame (hcontext ▸ hopens)
  have hcopied : ∀ k ∈ moments, ∀ id, k.Captures s.context call id →
      ∃ object, w.heap.get? id = some object ∧ object.scope = some (.ref call) :=
    fun k hk id hcaptures => (haccount.copied k hk call id (hcontext ▸ hcaptures)).1
  have hmarks : (∃ k ∈ moments, k.Marks s.context call) ↔
      (∃ k ∈ moments, ∃ id, k.Captures s.context call id) ∨ ∃ k ∈ moments, k.Loses s.context call := by
    simp only [Machine.Marks, and_or_left, exists_or]
  have hlive : ∀ id ∈ frame.records, w.heap.isLive id = true ↔
      (∃ k ∈ moments, ∃ id, k.Captures s.context call id) ∨ ∃ k ∈ moments, k.Loses s.context call := by
    cases hfate with
    | @running process frame hprocess hid hframe =>
      -- the process has ended, and so it has no frames
      have houtcome := hw.registered.outcome_eq process hprocess
      rw [hid, hended] at houtcome
      have hdone : process.isFinished = true := by
        rw [Process.isFinished, ← Option.some.inj houtcome]
        rfl
      obtain ⟨hframes, hparked⟩ := (hw.upright process hprocess).2 hdone
      simp [Process.ownFrames, hframes, hparked] at hframe
    | gone hissued habsent hlive =>
      intro id hid
      rw [hlive id hid, hcontext]
      exact hmarks
    | removed hid houtcome =>
      rw [hended] at houtcome
      cases houtcome
  refine ⟨call, hcall, hactivation, hcopied, hlive, fun hjustifies => ?_, fun hcaptured hkept => ?_⟩
  · by_cases hcaptured : ∃ k ∈ moments, ∃ id, k.Captures s.context call id
    · exact .inl hcaptured
    · refine .inr fun k hk hloses => hcaptured ?_
      obtain ⟨k', hk', id, object, hcaptures, -⟩ := hjustifies ((hlive call hcall).2 (.inr ⟨k, hk, hloses⟩))
      exact ⟨k', hk', id, hcontext ▸ hcaptures⟩
  · have hcaptured : ∃ k ∈ moments, ∃ id, k.Captures s.context call id := by
      rcases hcaptured with hcaptured | hroom
      · exact hcaptured
      · refine ((hlive call hcall).1 hkept).resolve_right ?_
        rintro ⟨k, hk, hloses⟩
        exact hroom k hk hloses
    obtain ⟨k, hk, id, hcaptures⟩ := hcaptured
    obtain ⟨object, hget, hscope⟩ := hcopied k hk id hcaptures
    exact ⟨k, hk, id, object, hcontext.symm ▸ hcaptures, hget, hscope⟩

/-- Runs `(| m = ((| |)) |) m`. -/
def callWithLiteral : List Line :=
  [.push (.object .plain [] none), .push (.text "m"),
    .push (.object .method [] (some [.push (.object .plain [] none)])), .addSlot .normal] ++ Demo.send "m" .unary 0

/-- A new scheduler with room for so many objects, and the history in which it runs `callWithLiteral`. -/
def stage (maxObjects : Nat) : Option (Scheduler × List Action) :=
  match Scheduler.create {} maxObjects, Code.compile callWithLiteral with
  | .ok s, .ok code => some (s, [.load code, .add 0, .run 0])
  | _, _ => none

theorem permitsAll_of_stage {maxObjects : Nat} {s : Scheduler} (h : stage maxObjects = some (s, actions)) :
    Scheduler.create {} maxObjects = .ok s ∧ PermitsAll plain { scheduler := s } actions := by
  unfold stage at h
  split at h
  · rename_i hs hcode
    cases h
    exact ⟨hs, trivial, by simp [Permits, after], trivial, trivial⟩
  · cases h

/-- The program ends well, and the activation of its call is live because of the literal. -/
theorem justifies_iff_of_ended_staged :
    ∃ (s : Scheduler) (actions : List Action) (m : Machine) (frame : Frame) (call : ObjectId) (outcome : Outcome),
      Scheduler.create {} 100 = .ok s ∧ PermitsAll False { scheduler := s } actions ∧
      m ∈ momentsAll { scheduler := s } actions ∧ m.Opens s.context frame ∧
      (afterAll { scheduler := s } actions).scheduler.outcomes[m.process.id]? = some (some outcome) ∧
      frame.activation = .ref call ∧ (afterAll { scheduler := s } actions).heap.isLive call = true ∧
      (afterAll { scheduler := s } actions).Justifies (momentsAll { scheduler := s } actions) call := by
  have hstage : ((stage 100).any fun setup =>
      ((momentsAll { scheduler := setup.1 } setup.2).all fun k => (k.fault? setup.1.context).isNone) &&
      (momentsAll { scheduler := setup.1 } setup.2).any fun m =>
        ((afterAll { scheduler := setup.1 } setup.2).scheduler.outcomes[m.process.id]?.join).isSome &&
        (m.openings setup.1.context).any fun frame =>
          frame.records.all (afterAll { scheduler := setup.1 } setup.2).heap.isLive) = true := by
    decide +kernel
  obtain ⟨⟨s, actions⟩, hs, hcheck⟩ := (Option.any_eq_true _ _).1 hstage
  simp only [Bool.and_eq_true, List.all_eq_true, List.any_eq_true] at hcheck
  obtain ⟨hok, m, hm, hended, frame, hframe, hlive⟩ := hcheck
  obtain ⟨outcome, houtcome⟩ := Option.isSome_iff_exists.1 hended
  have houtcome := Option.join_eq_some_iff.1 houtcome
  obtain ⟨hcreate, hpermits⟩ : _ ∧ PermitsAll False _ actions := permitsAll_of_stage hs
  obtain ⟨call, hcall, hactivation, -, -, hjustifies⟩ :=
    justifies_iff_of_ended hcreate hpermits hm (Machine.mem_openings.1 hframe) houtcome
  refine ⟨s, actions, m, frame, call, outcome, hcreate, hpermits, hm, Machine.mem_openings.1 hframe, houtcome, hactivation,
    hlive call hcall, hjustifies.2 (.inr fun k hk hloses => ?_)⟩
  obtain ⟨top, callers, index, fault, k', -, -, herror, -⟩ := hloses
  have hnone := hok k hk
  simp [Machine.fault?, herror] at hnone

/-- There is no room for the copy of the literal. The process ends, but the activation of its call stays, and no object
has it as its scope. -/
theorem not_justifies_of_ended :
    ∃ (s : Scheduler) (actions : List Action) (m : Machine) (frame : Frame) (call : ObjectId) (outcome : Outcome),
      Scheduler.create {} 55 = .ok s ∧ PermitsAll False { scheduler := s } actions ∧
      m ∈ momentsAll { scheduler := s } actions ∧ m.Opens s.context frame ∧
      (afterAll { scheduler := s } actions).scheduler.outcomes[m.process.id]? = some (some outcome) ∧
      frame.activation = .ref call ∧
      ¬(afterAll { scheduler := s } actions).Justifies (momentsAll { scheduler := s } actions) call := by
  have hstage : ((stage 55).any fun setup => (momentsAll { scheduler := setup.1 } setup.2).any fun m =>
      ((afterAll { scheduler := setup.1 } setup.2).scheduler.outcomes[m.process.id]?.join).isSome &&
      (m.openings setup.1.context).any fun frame => frame.records.any fun call =>
        decide (frame.activation = .ref call) && (afterAll { scheduler := setup.1 } setup.2).heap.isLive call &&
        (afterAll { scheduler := setup.1 } setup.2).heap.cells.toList.all fun cell =>
          cell.occupant.all fun object => decide (object.scope ≠ some (.ref call))) = true := by
    decide +kernel
  obtain ⟨⟨s, actions⟩, hs, hcheck⟩ := (Option.any_eq_true _ _).1 hstage
  simp only [Bool.and_eq_true, List.all_eq_true, List.any_eq_true, decide_eq_true_eq] at hcheck
  obtain ⟨m, hm, hended, frame, hframe, call, -, ⟨hactivation, hlive⟩, hscopes⟩ := hcheck
  obtain ⟨outcome, houtcome⟩ := Option.isSome_iff_exists.1 hended
  have houtcome := Option.join_eq_some_iff.1 houtcome
  obtain ⟨hcreate, hpermits⟩ : _ ∧ PermitsAll False _ actions := permitsAll_of_stage hs
  refine ⟨s, actions, m, frame, call, outcome, hcreate, hpermits, hm, Machine.mem_openings.1 hframe, houtcome,
    hactivation, fun hjustifies => ?_⟩
  obtain ⟨k, hk, id, object, -, hget, hscope⟩ := hjustifies hlive
  have hcell := List.mem_of_getElem? (Array.getElem?_toList ▸ Heap.get?_eq_some_iff.1 hget)
  simpa [hscope] using hscopes _ hcell

end Session

end ProtoVm
