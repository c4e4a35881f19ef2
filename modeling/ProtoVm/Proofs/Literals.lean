import ProtoVm.Proofs.StepEffect

/-!
# Object literals

An object literal has a template, which is made when the literal comes up for the first time. From then on the literal
is copied from it. The frame is marked between the two, so that a copy that fails leaves the mark behind.
-/

namespace ProtoVm

namespace Heap

variable {heap heap' : Heap} {site : Site} {kind : ObjectKind} {params : List String} {code : Option Code}
  {id : ObjectId} {fault : Fault}

theorem template_of_some (h : heap.templates.lookup site = some id) :
    template site kind params code heap = .ok id heap := by
  unfold template
  rw [get_bind, h]
  rfl

/-- The template of a literal, when it is made. -/
def makeTemplate (site : Site) (kind : ObjectKind) (params : List String) (code : Option Code) : HeapM ObjectId :=
  match kind with
  | .plain => newObject
  | .method => newMethod ⟨(code.getD {}).finalize, site⟩ params false
  | .block => newMethod ⟨(code.getD {}).finalize, site⟩ params true

theorem template_of_none (h : heap.templates.lookup site = none) :
    template site kind params code heap =
      (do let id ← makeTemplate site kind params code
          modify fun heap : Heap => { heap with templates := (site, id) :: heap.templates }
          return id) heap := by
  unfold template
  rw [get_bind, h]
  cases kind <;> rfl

theorem lookup_of_template (h : template site kind params code heap = .ok id heap') :
    heap'.templates.lookup site = some id := by
  cases hlookup : heap.templates.lookup site with
  | some found =>
    rw [template_of_some hlookup] at h
    cases h
    exact hlookup
  | none =>
    rw [template_of_none hlookup] at h
    obtain ⟨made, middle, -, hrest⟩ := Exec.bind_ok_iff.1 h
    cases hrest
    simp

theorem makeTemplate_error (h : makeTemplate site kind params code heap = .error fault heap') :
    fault = .heapExhausted heap.limit ∧ heap'.templates = heap.templates := by
  unfold makeTemplate at h
  have hmethod {body : Body} {isBlock : Bool} (h : newMethod body params isBlock heap = .error fault heap') :
      fault = .heapExhausted heap.limit ∧ heap'.templates = heap.templates := by
    obtain ⟨rfl, rfl⟩ := allocate_error (show allocate _ _ = _ from h)
    exact ⟨rfl, rfl⟩
  cases kind with
  | plain =>
    obtain ⟨rfl, rfl⟩ := allocate_error h
    exact ⟨rfl, rfl⟩
  | method => exact hmethod h
  | block => exact hmethod h

theorem instantiate_adds {template : ObjectId} {scope : Value} (tidy : heap.Tidy)
    (h : instantiate template scope heap = .ok id heap') :
    heap.Adds { heap.object template with scope := some scope } id heap' :=
  allocate_adds tidy (show allocate _ heap = _ from h)

/-- If there is no room for the template then there is no template. -/
theorem template_error (h : template site kind params code heap = .error fault heap') :
    fault = .heapExhausted heap.limit ∧ heap'.templates.lookup site = none := by
  cases hlookup : heap.templates.lookup site with
  | some found =>
    rw [template_of_some hlookup] at h
    cases h
  | none =>
    rw [template_of_none hlookup] at h
    cases hmake : makeTemplate site kind params code heap with
    | ok made middle =>
      rw [bind_of_ok hmake] at h
      cases h
    | error fault' middle =>
      rw [bind_of_error hmake] at h
      cases h
      obtain ⟨hfault, htemplates⟩ := makeTemplate_error hmake
      exact ⟨hfault, htemplates ▸ hlookup⟩

end Heap

namespace Exec

variable {ctx : Context} {m k : Machine} {site : Site} {kind : ObjectKind} {params : List String} {code : Option Code}
  {top : Frame} {callers : List Frame}

theorem frame_eq (hframes : m.process.frames = top :: callers) : Exec.frame m = .ok top m := by
  unfold Exec.frame
  rw [get_bind, hframes]
  rfl

theorem onHeap_of_ok {α : Type} {x : HeapM α} {a : α} {heap : Heap} (h : x m.heap = .ok a heap) :
    onHeap x m = .ok a { m with heap } := by
  simp only [onHeap, h]

theorem onHeap_of_error {α : Type} {x : HeapM α} {fault : Fault} {heap : Heap} (h : x m.heap = .error fault heap) :
    onHeap x m = .error fault { m with heap } := by
  simp only [onHeap, h]

/-- The copy of a literal in a scope. From the time when there is a template the process is `marked`. -/
def copyLiteral (site : Site) (kind : ObjectKind) (params : List String) (code : Option Code) (scope : Value)
    (marked : Process) (m : Machine) : EStateM.Result Fault Machine Value :=
  match Heap.template site kind params code m.heap with
  | .error fault heap => .error fault { m with heap }
  | .ok template heap =>
    match Heap.instantiate template scope heap with
    | .ok id heap => .ok (.ref id) ⟨heap, marked, m.journal⟩
    | .error fault heap => .error fault ⟨heap, marked, m.journal⟩

theorem instantiate_eq (hframes : m.process.frames = top :: callers) :
    instantiate site kind params code m = copyLiteral site kind params code top.activation m.process.mark m := by
  unfold instantiate copyLiteral
  cases htemplate : Heap.template site kind params code m.heap with
  | error fault heap => exact bind_of_error (onHeap_of_error htemplate)
  | ok template heap =>
    have hmade : onHeap (Heap.template site kind params code) m = .ok template { m with heap } :=
      onHeap_of_ok htemplate
    have hmark : updateFrame ({ · with captured := true }) { m with heap } = .ok () { m.mark with heap } := by
      simp [updateFrame, Process.mark, hframes]
    have hframe : Exec.frame { m with heap } = .ok top { m with heap } := frame_eq hframes
    rw [bind_of_ok hmade, bind_of_ok hframe, bind_of_ok hmark]
    dsimp only
    cases hcopy : Heap.instantiate template top.activation heap with
    | error fault heap' => exact bind_of_error (onHeap_of_error hcopy)
    | ok copy heap' =>
      have hcopied : onHeap (Heap.instantiate template top.activation) { m.mark with heap } =
          .ok copy { m.mark with heap := heap' } := onHeap_of_ok hcopy
      rw [bind_of_ok hcopied]
      rfl

theorem push_of_frames (hframes : m.process.frames = top :: callers) (value : Value) :
    push value m = .ok () { m with process := { m.process with frames := top.push value :: callers } } := by
  simp only [push, updateFrame, hframes]

/-- The object literal with an index, if the code has one there. -/
theorem literal_object_eq (hframes : m.process.frames = top :: callers) (index : UInt8) :
    literal ctx .object index m =
      match top.body.code.literals[index.toNat]? with
      | some (.object kind params code) => instantiate (top.body.site ++ [index.toNat]) kind params code m
      | some _ => .error (.literalMismatch .object) m
      | none => .error (.literalOutOfRange index.toNat) m := by
  unfold literal
  refine (bind_of_ok (frame_eq hframes)).trans ?_
  dsimp only
  cases hl : top.body.code.literals[index.toNat]? with
  | none =>
    rw [Code.literal_eq_error_iff.2 ⟨hl, rfl⟩]
    rfl
  | some l =>
    rw [Code.literal_eq_ok_iff.2 hl]
    cases l <;> rfl

end Exec

/-- Where a literal of the running code was written. -/
def Frame.literalSite (frame : Frame) (index : UInt8) : Site := frame.body.site ++ [index.toNat]

namespace Machine

variable {ctx : Context} {m k : Machine} {top : Frame} {callers : List Frame} {index : UInt8} {fault : Fault}

/-- The next instruction is in the frame `top` and evaluates the object literal with this index. -/
structure Evaluates (m : Machine) (top : Frame) (callers : List Frame) (index : UInt8) : Prop where
  frames_eq : m.process.frames = top :: callers
  decode_eq : Instruction.decode top.body.code.bytes top.ip = .ok (.pushLiteral .object index)

theorem Evaluates.reads (h : m.Evaluates top callers index) : m.Reads (.pushLiteral .object index) :=
  ⟨top, callers, h.frames_eq, h.decode_eq⟩

theorem Evaluates.frames_after (h : m.Evaluates top callers index) :
    (m.process.after (.pushLiteral .object index)).frames = top.after (.pushLiteral .object index) :: callers := by
  rw [Process.after, h.frames_eq, List.modifyHead_cons]

/-- What became of a literal before its copy is pushed. -/
theorem Evaluates.literal_cases (h : m.Evaluates top callers index) (ctx : Context) :
    ∃ fetched : Machine, fetched.heap = m.heap ∧ fetched.process = m.process.past (.pushLiteral .object index) ∧
      Exec.step ctx m = (Exec.literal ctx .object index >>= Exec.push) fetched ∧
      ((∃ fault, Exec.literal ctx .object index fetched = .error fault fetched ∧ fault.isRecoverable = false ∧
          ∀ limit, fault ≠ .heapExhausted limit) ∨
        ∃ kind params code, top.body.code.literals[index.toNat]? = some (.object kind params code) ∧
          Exec.literal ctx .object index fetched = Exec.copyLiteral (top.literalSite index) kind params code
            top.activation (m.process.after (.pushLiteral .object index)) fetched) := by
  obtain ⟨fetched, hfetch, -⟩ := fetch_of_reads h.reads
  obtain ⟨-, hheap, hprocess⟩ := Exec.fetch_past.of_ok hfetch
  have hframes : fetched.process.frames = top.past (.pushLiteral .object index) :: callers := by
    rw [hprocess, Process.past, h.frames_eq, List.modifyHead_cons]
  have hmark : fetched.process.mark = m.process.after (.pushLiteral .object index) := by
    rw [hprocess, Exec.mark_past]
  have hliteral : Exec.literal ctx .object index fetched = _ := Exec.literal_object_eq hframes index
  refine ⟨fetched, hheap, hprocess, by rw [Exec.step_eq, bind_of_ok hfetch]; rfl, ?_⟩
  split at hliteral
  · rename_i kind params code hl
    rw [Exec.instantiate_eq hframes, hmark] at hliteral
    exact .inr ⟨kind, params, code, hl, hliteral⟩
  · exact .inl ⟨_, hliteral, rfl, by simp⟩
  · exact .inl ⟨_, hliteral, rfl, by simp⟩

/-- The copy of a literal is on top of the operands, and the frame is marked. -/
theorem Evaluates.of_ok (h : m.Evaluates top callers index) (hstep : Exec.step ctx m = .ok () k) :
    ∃ kind params code template heap id, top.body.code.literals[index.toNat]? = some (.object kind params code) ∧
      Heap.template (top.literalSite index) kind params code m.heap = .ok template heap ∧
      Heap.instantiate template top.activation heap = .ok id k.heap ∧
      k.process = { m.process with frames := (top.after (.pushLiteral .object index)).push (.ref id) :: callers } := by
  obtain ⟨fetched, hheap, -, heq, ⟨fault, hliteral, -⟩ | ⟨kind, params, code, hl, hliteral⟩⟩ := h.literal_cases ctx
  · rw [heq, bind_of_error hliteral] at hstep
    cases hstep
  · rw [heq] at hstep
    rw [Exec.copyLiteral, hheap] at hliteral
    split at hliteral
    · rw [bind_of_error hliteral] at hstep
      cases hstep
    · rename_i template heap htemplate
      split at hliteral
      · rename_i id heap' hcopy
        rw [bind_of_ok hliteral, Exec.push_of_frames h.frames_after] at hstep
        cases hstep
        exact ⟨kind, params, code, template, heap, id, hl, htemplate, hcopy, rfl⟩
      · rw [bind_of_error hliteral] at hstep
        cases hstep

/-- There is no room for the copy of a literal, though its template is there. -/
def Uncopied (fault : Fault) (k : Machine) (site : Site) : Prop :=
  (∃ limit, fault = .heapExhausted limit) ∧ (k.heap.templates.lookup site).isSome = true

/-- A literal that fails leaves a mark just if its template is there and there is no room for the copy. -/
theorem Evaluates.of_error (h : m.Evaluates top callers index) (hstep : Exec.step ctx m = .error fault k) :
    fault.isRecoverable = false ∧
      (k.process = m.process.past (.pushLiteral .object index) ∧ ¬Uncopied fault k (top.literalSite index) ∨
        k.process = m.process.after (.pushLiteral .object index) ∧ Uncopied fault k (top.literalSite index)) := by
  obtain ⟨fetched, hheap, hprocess, heq, ⟨fault', hliteral, hfault, hroom⟩ | ⟨kind, params, code, hl, hliteral⟩⟩ :=
    h.literal_cases ctx
  · rw [heq, bind_of_error hliteral] at hstep
    cases hstep
    exact ⟨hfault, .inl ⟨hprocess, fun huncopied => huncopied.1.elim fun limit heq => hroom limit heq⟩⟩
  · rw [heq] at hstep
    rw [Exec.copyLiteral, hheap] at hliteral
    split at hliteral
    · rename_i heap htemplate
      rw [bind_of_error hliteral] at hstep
      cases hstep
      obtain ⟨rfl, hnone⟩ := Heap.template_error htemplate
      exact ⟨rfl, .inl ⟨hprocess, fun huncopied => by simp [Uncopied, hnone] at huncopied⟩⟩
    · rename_i template heap htemplate
      split at hliteral
      · rw [bind_of_ok hliteral, Exec.push_of_frames h.frames_after] at hstep
        cases hstep
      · rename_i heap' hcopy
        rw [bind_of_error hliteral] at hstep
        cases hstep
        obtain ⟨rfl, rfl⟩ := Heap.allocate_error (show Heap.allocate _ _ = _ from hcopy)
        refine ⟨rfl, .inr ⟨rfl, ⟨_, rfl⟩, ?_⟩⟩
        exact Option.isSome_iff_exists.2 ⟨template, Heap.lookup_of_template htemplate⟩

end Machine

end ProtoVm
