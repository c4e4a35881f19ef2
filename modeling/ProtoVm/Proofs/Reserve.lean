import ProtoVm.Proofs.Circulation

/-!
# What goes out of circulation

The first time that an object literal comes up, its template is made and goes into the reserve. It is new to the heap,
and so no value that was there before names it.
-/

namespace ProtoVm

/-! ## A new object in reserve -/

/-- The later reserve has what the earlier one has, and objects that the heap had not issued then. -/
structure Reserve.Extends (r : Reserve) (heap : Heap) (r' : Reserve) : Prop where
  fits_eq : r'.fits = r.fits
  cases : ∀ entry ∈ r'.table, entry ∈ r.table ∨ ¬heap.Issued entry.2

/-- The reserve with one object more. -/
def Reserve.add (r : Reserve) (site : Site) (id : ObjectId) : Reserve := { r with table := (site, id) :: r.table }

namespace Reserve.Extends

variable {r r' r'' : Reserve} {heap heap' : Heap}

theorem refl (r : Reserve) (heap : Heap) : r.Extends heap r := ⟨rfl, fun _ => .inl⟩

theorem trans (h : r.Extends heap r') (h' : r'.Extends heap' r'') (hissued : ∀ id, heap.Issued id → heap'.Issued id) :
    r.Extends heap r'' := by
  refine ⟨h'.fits_eq.trans h.fits_eq, fun entry hentry => ?_⟩
  rcases h'.cases entry hentry with hentry | hnew
  · exact h.cases entry hentry
  · exact .inr fun hold => hnew (hissued _ hold)

/-- A value that the heap knew is none of the new objects. -/
theorem outside (h : r.Extends heap r') {value : Value} (hvalue : r.Outside value) (hissued : heap.IssuedValue value) :
    r'.Outside value := by
  rintro entry hentry rfl
  rcases h.cases entry hentry with hentry | hnew
  · exact hvalue entry hentry rfl
  · exact hnew (hissued entry.2 rfl)

theorem add (r : Reserve) (site : Site) {id : ObjectId} (h : ¬heap.Issued id) : r.Extends heap (r.add site id) := by
  refine ⟨rfl, fun entry hentry => ?_⟩
  rcases List.mem_cons.1 hentry with rfl | hentry
  · exact .inr h
  · exact .inl hentry

end Reserve.Extends

theorem Object.Shuns.extend {r r' : Reserve} {heap : Heap} {object : Object} (h : object.Shuns r)
    (hext : r.Extends heap r') (hheld : ∀ value ∈ object.held, heap.IssuedValue value)
    (hscope : ∀ value, object.scope = some value → heap.IssuedValue value) : object.Shuns r' := by
  refine ⟨fun value hvalue => ?_, fun value hvalue => ?_, fun value hvalue => ?_, fun value hvalue => ?_⟩
  · exact hext.outside (h.slots value hvalue) (hheld value (by simp [Object.held, hvalue]))
  · exact hext.outside (h.parents value hvalue) (hheld value (by simp [Object.held, hvalue]))
  · exact hext.outside (h.receiver value hvalue) (hheld value (by simp [Object.held, hvalue]))
  · exact hext.outside (h.scope value hvalue) (hscope value hvalue)

namespace Heap

variable {policy : Policy} {r r' : Reserve} {roots : Roots} {heap heap' : Heap} {frames : List Frame}

theorem issued_of_isLive {id : ObjectId} (h : heap.isLive id = true) : heap.Issued id := by
  obtain ⟨object, hget⟩ := isLive_iff.1 h
  exact .of_get? hget

theorem Sound.object_shuns (hs : heap.Sound policy roots frames) (hext : r.Extends heap r') {id : ObjectId}
    {object : Object} (hget : heap.get? id = some object) (h : object.Shuns r) : object.Shuns r' := by
  have hsound := hs.objects id object hget
  refine h.extend hext (fun value hvalue => (hsound.held value hvalue).lasts.issued) fun value hvalue => ?_
  cases value with
  | fixnum n => exact nofun
  | ref target =>
    rintro _ ⟨⟩
    exact issued_of_isLive (hsound.scope target hvalue).1

theorem Sound.frame_shuns (hs : heap.Sound policy roots frames) (hext : r.Extends heap r') {frame : Frame}
    (hframe : frame ∈ frames) (h : frame.Shuns r) : frame.Shuns r' := by
  have hsound := hs.activations frame hframe
  have hheld {value : Value} (hvalue : value ∈ frame.held) : heap.IssuedValue value :=
    (hsound.held value hvalue).lasts.issued
  have hactivation : heap.IssuedValue frame.activation := by
    cases hvalue : frame.activation with
    | fixnum n => exact nofun
    | ref id =>
      rintro _ ⟨⟩
      exact issued_of_isLive (hsound.activation id hvalue).1
  refine ⟨hext.outside h.activation hactivation, fun value hvalue => hext.outside (h.stack value hvalue) ?_,
    hext.outside h.receiver (hheld List.mem_cons_self), fun value hvalue => hext.outside (h.handler value hvalue) ?_,
    fun value hvalue => hext.outside (h.error value hvalue) ?_, fun id hid => hext.outside (h.records id hid) ?_⟩
  · rcases hsound.stack value hvalue with rfl | haccepts
    · exact hactivation
    · exact haccepts.lasts.issued
  · exact hheld (by simp [Frame.held, hvalue])
  · exact hheld (by simp [Frame.held, hvalue])
  · rintro _ ⟨⟩
    obtain ⟨object, hget, -⟩ := hsound.records id hid
    exact .of_get? hget

theorem shuns_of_isTemplate {params : List String} {body : Body} {kind : ObjectKind} {object : Object}
    (h : object.IsTemplate params body kind) : object.Shuns r ∧ object.shape.slots = [] := by
  cases h with
  | plain => exact ⟨Object.shuns_of_empty rfl rfl rfl rfl, rfl⟩
  | method id bindings => exact ⟨Object.shuns_of_empty rfl rfl rfl rfl, rfl⟩
  | block id bindings => exact ⟨Object.shuns_of_empty rfl rfl rfl rfl, rfl⟩

/-- The template of a literal is an object that is made, after numbers for its shapes are drawn. -/
theorem makeTemplate_eq (site : Site) (kind : ObjectKind) (params : List String) (code : Option Code) (heap : Heap) :
    ∃ object middle, heap.SameStore middle ∧ object.IsTemplate params ⟨(code.getD {}).finalize, site⟩ kind ∧
      makeTemplate site kind params code heap = allocate object middle := by
  have hdraw : heap.SameStore { heap with nextShape := heap.nextShape + 2 } := ⟨rfl, rfl, rfl, rfl, rfl⟩
  cases kind with
  | plain => exact ⟨_, heap, ⟨rfl, rfl, rfl, rfl, rfl⟩, .plain, rfl⟩
  | method => exact ⟨_, _, hdraw, .method (heap.nextShape + 1) heap.nextShape, rfl⟩
  | block => exact ⟨_, _, hdraw, .block (heap.nextShape + 1) heap.nextShape, rfl⟩

/-- An object that was just made, after numbers were drawn, goes into the reserve. -/
theorem Sound.reserve (hs : heap.Sound policy roots frames) (hh : heap.Hides r roots) {middle : Heap}
    (hsame : heap.SameStore middle) {site : Site} {object : Object} {id : ObjectId}
    (hadds : middle.Adds object id heap') (hslots : object.shape.slots = []) (hfits : r.fits site object) (hobject : object.Shuns (r.add site id)) :
    r.Extends heap (r.add site id) ∧
      Hides (r.add site id) roots { heap' with templates := (site, id) :: heap'.templates } := by
  have hext : r.Extends heap (r.add site id) := .add r site fun hid => hadds.unissued (hsame.grows.issued id hid)
  have hanchor {other : ObjectId} (h : other ∈ heap.anchors roots) : heap.IssuedValue (.ref other) :=
    (hs.anchors other h).lasts.issued
  refine ⟨hext, ⟨hadds.tidy.free_nodup, hadds.tidy.free_empty, hadds.tidy.size_le⟩, ?_, fun entry hentry => ?_,
    fun other hother => ?_, fun entry hentry => ?_, fun other found hget => ?_⟩
  · show _ :: heap'.templates = _ :: r.table
    rw [hadds.templates_eq, hsame.templates_eq, hh.templates_eq]
  · rcases List.mem_cons.1 hentry with rfl | hentry
    · exact ⟨object, hadds.get?_self, hslots, hfits⟩
    · obtain ⟨found, hget, hfound⟩ := hh.kept entry hentry
      exact ⟨found, hadds.get?_of_some ((hsame.get?_eq _).trans hget), hfound⟩
  · exact hext.outside (hh.roots other hother) (hanchor (List.mem_append_left _ hother))
  · have hentry : entry ∈ heap.strings := (hadds.strings_eq.trans hsame.strings_eq) ▸ hentry
    refine hext.outside (hh.strings entry hentry) (hanchor (List.mem_append_right _ (List.mem_append_left _ ?_)))
    exact List.mem_map_of_mem hentry
  · have hget : heap'.get? other = some found := hget
    by_cases hother : other = id
    · rw [hother, hadds.get?_self] at hget
      exact Option.some.inj hget ▸ hobject
    · rw [hadds.get?_of_ne other hother, hsame.get?_eq] at hget
      exact hs.object_shuns hext hget (hh.objects other found hget)

/-- A literal has its template in reserve, or gets it there. -/
theorem Sound.template (hs : heap.Sound policy roots frames) (hh : heap.Hides r roots) (site : Site)
    {kind : ObjectKind} {params : List String} {code : Option Code}
    (hfits : ∀ object : Object, object.IsTemplate params ⟨(code.getD {}).finalize, site⟩ kind → r.fits site object) :
    Ends (Heap.template site kind params code) heap
      (fun id heap' => ∃ r', r.Extends heap r' ∧ heap'.Hides r' roots ∧ (site, id) ∈ r'.table ∧
        ∀ other, heap.Issued other → heap'.Issued other)
      fun _ heap' => heap'.Hides r roots := by
  unfold Ends
  cases hlookup : heap.templates.lookup site with
  | some id =>
    obtain ⟨before, after, htable, -⟩ := List.lookup_eq_some_iff.1 hlookup
    rw [template_of_some hlookup]
    refine ⟨r, .refl r heap, hh, ?_, fun _ hother => hother⟩
    rw [← hh.templates_eq, htable]
    simp
  | none =>
    obtain ⟨object, middle, hsame, htemplate, hmake⟩ := makeTemplate_eq site kind params code heap
    rw [template_of_none hlookup]
    cases hallocate : Heap.allocate object middle with
    | error fault failed =>
      rw [bind_of_error (hmake.trans hallocate), (allocate_error hallocate).1]
      exact hh.sameStore hsame
    | ok id made =>
      rw [bind_of_ok (hmake.trans hallocate)]
      obtain ⟨hshuns, hslots⟩ := shuns_of_isTemplate htemplate
      have hadds := allocate_adds (hsame.tidy hh.tidy) hallocate
      obtain ⟨hext, hhides⟩ := hs.reserve hh hsame hadds hslots (hfits object htemplate) hshuns
      exact ⟨r.add site id, hext, hhides, List.mem_cons_self,
        fun other hother => hadds.issued other (hsame.grows.issued other hother)⟩

end Heap

/-! ## One instruction -/

namespace Machine

variable {policy : Policy} {r r' : Reserve} {m k : Machine} {ctx : Context} {others : List Frame}

namespace Hides

theorem modifyHead (hm : m.Hides r ctx.roots) {edit : Frame → Frame}
    (hedit : ∀ frame : Frame, frame.Shuns r → (edit frame).Shuns r) :
    Hides r ctx.roots { m with process := { m.process with frames := m.process.frames.modifyHead edit } } := by
  have hrunning := hm.running
  refine hm.withFrames ?_
  cases hframes : m.process.frames with
  | nil => simp
  | cons frame callers =>
    rw [hframes, List.forall_mem_cons] at hrunning
    exact List.forall_mem_cons.2 ⟨hedit frame hrunning.1, hrunning.2⟩

/-- To read an instruction is to change nothing but the place in the code. -/
theorem past (hm : m.Hides r ctx.roots) {fetched : Machine} {i : Instruction} (hheap : fetched.heap = m.heap)
    (hprocess : fetched.process = m.process.past i) : fetched.Hides r ctx.roots := by
  obtain ⟨heap, process, journal⟩ := fetched
  obtain rfl : heap = m.heap := hheap
  obtain rfl : process = m.process.past i := hprocess
  exact modifyHead (m := ⟨m.heap, m.process, journal⟩) { hm with } fun _ hframe => { hframe with }

theorem fail (hm : m.Hides r ctx.roots) (fault : Fault) : (m.fail ctx fault).Hides r ctx.roots := by
  have hreport : Exec.Upholds r ctx.roots (report ctx fault) m fun _ => True :=
    (Exec.upholds_onHeap hm (Heap.upholds_newString hm.heap _)).bind fun _ _ hm hvalue =>
      Exec.upholds_raise hm hvalue (some fault)
  rw [fail_eq]
  split
  · split
    · exact (hreport.of_ok ‹_›).1
    · exact (hreport.of_error ‹_›).terminate _
  · exact hm.terminate fault

/-- The heap of a process that goes on is exchanged for one with more in reserve. -/
theorem extend (hm : m.Hides r ctx.roots) (hs : m.Sound policy ctx.roots others)
    (hgoing : m.process.isFinished = false) {heap : Heap} (hext : r.Extends m.heap r') (hheap : heap.Hides r' ctx.roots)
    (journal : List Event) : Hides r' ctx.roots ⟨heap, m.process, journal⟩ := by
  refine ⟨hheap, fun frame hframe => ?_, fun outcome houtcome => ?_⟩
  · exact hs.frame_shuns hext (List.mem_append_left _ hframe) (hm.frames frame hframe)
  · rw [Process.isFinished, show m.process.outcome = some outcome from houtcome] at hgoing
    cases hgoing

end Hides

/-- Whether an object literal is copied or not, it adds its template to the reserve at most. -/
theorem Evaluates.hides {top : Frame} {callers : List Frame} {index : UInt8} (h : m.Evaluates top callers index)
    (hm : m.Hides r ctx.roots) (hs : m.Sound policy ctx.roots others) (hgoing : m.process.isFinished = false)
    (hfits : ∀ kind params code object, top.body.code.literals[index.toNat]? = some (.object kind params code) →
      Object.IsTemplate params ⟨(code.getD {}).finalize, top.literalSite index⟩ kind object →
      r.fits (top.literalSite index) object) :
    Ends (Exec.step ctx) m (fun _ k => ∃ r', r.Extends m.heap r' ∧ k.Hides r' ctx.roots)
      fun _ k => ∃ r', r.Extends m.heap r' ∧ k.Hides r' ctx.roots := by
  obtain ⟨fetched, hheap, hprocess, hstep, hliteral⟩ := h.literal_cases ctx
  obtain ⟨heap, process, journal⟩ := fetched
  obtain rfl : heap = m.heap := hheap
  obtain rfl : process = _ := hprocess
  have hpast : Hides r ctx.roots ⟨m.heap, m.process.past (.pushLiteral .object index), journal⟩ := hm.past rfl rfl
  unfold Ends
  rw [hstep]
  rcases hliteral with ⟨fault, hliteral, -⟩ | ⟨kind, params, code, hl, hliteral⟩
  · rw [bind_of_error hliteral]
    exact ⟨r, .refl r _, hpast⟩
  · have htemplate := hs.template hm.heap _ fun object => hfits kind params code object hl
    unfold Exec.copyLiteral at hliteral
    split at hliteral
    · rw [bind_of_error hliteral]
      exact ⟨r, .refl r _, hpast.withHeap (htemplate.of_error ‹_›)⟩
    · rename_i template heap hmade
      obtain ⟨r', hext, hheap, -⟩ := htemplate.of_ok hmade
      have hafter : Hides r' ctx.roots ⟨heap, m.process.after (.pushLiteral .object index), journal⟩ :=
        (hm.extend hs hgoing hext hheap journal).modifyHead fun _ hframe => { hframe with }
      have htop : (top.after (.pushLiteral .object index)).Shuns r' :=
        hafter.running _ (h.frames_after ▸ List.mem_cons_self)
      have hcopy := Heap.upholds_instantiate hheap template htop.activation
      split at hliteral
      · obtain ⟨hcopied, hid⟩ := hcopy.of_ok ‹_›
        rw [bind_of_ok hliteral]
        exact Ends.mono (Exec.upholds_push (hafter.withHeap hcopied) hid) (fun _ _ hk => ⟨r', hext, hk.1⟩)
          fun _ _ hk => ⟨r', hext, hk⟩
      · rw [bind_of_error hliteral]
        exact ⟨r', hext, hafter.withHeap (hcopy.of_error ‹_›)⟩

/-- An instruction that is no object literal leaves the reserve alone. -/
theorem hides_step (hm : m.Hides r ctx.roots) (h : ∀ top callers index, ¬m.Evaluates top callers index) :
    Exec.Upholds r ctx.roots (Exec.step ctx) m fun _ => True := by
  rw [Exec.step_eq]
  unfold Exec.Upholds Upholds
  rw [ends_bind]
  refine ends_iff.2 ⟨fun i fetched hfetch => ?_, fun fault fetched hfetch => ?_⟩
  · obtain ⟨⟨top, callers, hframes, hdecode⟩, hheap, hprocess⟩ := Exec.fetch_past.of_ok hfetch
    refine Exec.upholds_execute (hm.past hheap hprocess) ?_
    rintro index rfl
    exact h top callers index ⟨hframes, hdecode⟩
  · rw [(Exec.fetch_past.of_error hfetch).1]
    exact hm

/-- An instruction keeps what is in reserve, and adds to it the template of a literal at most. -/
theorem hides_advance (ctx : Context) (hm : m.Hides r ctx.roots) (hs : m.Sound policy ctx.roots others)
    (hgoing : m.process.isFinished = false)
    (hfits : ∀ top callers index kind params code object, m.Evaluates top callers index →
      top.body.code.literals[index.toNat]? = some (.object kind params code) →
      Object.IsTemplate params ⟨(code.getD {}).finalize, top.literalSite index⟩ kind object →
      r.fits (top.literalSite index) object) :
    ∃ r', r.Extends m.heap r' ∧ (m.advance ctx).Hides r' ctx.roots := by
  have hstep : Ends (Exec.step ctx) m (fun _ k => ∃ r', r.Extends m.heap r' ∧ k.Hides r' ctx.roots)
      fun _ k => ∃ r', r.Extends m.heap r' ∧ k.Hides r' ctx.roots := by
    by_cases h : ∃ top callers index, m.Evaluates top callers index
    · obtain ⟨top, callers, index, heval⟩ := h
      exact heval.hides hm hs hgoing
        fun kind params code object => hfits top callers index kind params code object heval
    · refine Ends.mono (hides_step hm fun top callers index heval => h ⟨top, callers, index, heval⟩) ?_ ?_
      · exact fun _ _ hk => ⟨r, .refl r _, hk.1⟩
      · exact fun _ _ hk => ⟨r, .refl r _, hk⟩
  unfold advance
  split
  · exact hstep.of_ok ‹_›
  · obtain ⟨r', hext, hk⟩ := hstep.of_error ‹_›
    exact ⟨r', hext, hk.fail _⟩

end Machine

end ProtoVm
