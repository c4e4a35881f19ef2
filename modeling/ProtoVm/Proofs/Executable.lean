import Mathlib.Data.List.Nodup
import ProtoVm.Proofs.Assembled
import ProtoVm.Proofs.FreshSession
import ProtoVm.Proofs.Lifecycle

/-!
# Assembled code can always be executed

Every frame runs a unit that was loaded, or the unit of an object literal written in one. If the unit was assembled from
checked lines, the frame stands where an instruction begins that can be read, and never fails for its code.
-/

namespace ProtoVm

/-! ## Literals that can be pushed -/

/-- The faults of code that cannot be read, or whose literal cannot be pushed. -/
def Fault.concernsLiteral : Fault → Bool
  | integerOverflow _ => true
  | fault => fault.concernsCode

theorem Fault.concernsCode_of_concernsLiteral {fault : Fault} (h : fault.concernsLiteral = false) :
    fault.concernsCode = false := by
  cases fault with
  | integerOverflow n => rfl
  | _ => exact h

namespace Heap

/-- The operation fails only for want of room. -/
def Exhausts {α : Type} (x : HeapM α) : Prop :=
  ∀ heap, Ends x heap (fun _ _ => True) fun fault _ => ∃ limit, fault = .heapExhausted limit

variable {α β : Type}

theorem Exhausts.pure (a : α) : Exhausts (pure a) := fun _ => trivial

theorem Exhausts.bind {x : HeapM α} {f : α → HeapM β} (hx : Exhausts x) (hf : ∀ a, Exhausts (f a)) :
    Exhausts (x >>= f) := by
  intro heap
  rw [ends_bind]
  exact (hx heap).mono (fun a heap' _ => hf a heap') fun _ _ h => h

theorem Exhausts.get {f : Heap → HeapM α} (h : ∀ heap, Exhausts (f heap)) : Exhausts (MonadState.get >>= f) :=
  fun heap => h heap heap

theorem exhausts_modify (edit : Heap → Heap) : Exhausts (modify edit) := fun _ => trivial

theorem exhausts_allocate (object : Object) : Exhausts (allocate object) := by
  refine fun heap => ends_iff.2 ⟨fun _ _ _ => trivial, fun fault heap' herror => ?_⟩
  exact ⟨heap.limit, (allocate_error herror).2⟩

theorem exhausts_copy (id : ObjectId) (edit : Object → Object) : Exhausts (copy id edit) :=
  .get fun _ => exhausts_allocate _

theorem exhausts_freshShape : Exhausts freshShape := fun _ => trivial

theorem exhausts_newMethod (body : Body) (params : List String) (isBlock : Bool) :
    Exhausts (newMethod body params isBlock) :=
  exhausts_freshShape.bind fun _ => exhausts_freshShape.bind fun _ => exhausts_allocate _

theorem exhausts_newFloat (roots : Roots) (x : Float) : Exhausts (roots.newFloat x) :=
  (exhausts_copy _ _).bind fun _ => .pure _

theorem exhausts_intern (roots : Roots) (s : String) : Exhausts (roots.intern s) := by
  refine .get fun heap => ?_
  split
  · exact .pure _
  · exact (exhausts_copy _ _).bind fun _ => (exhausts_modify _).bind fun _ => .pure _

theorem exhausts_template (site : Site) (kind : ObjectKind) (params : List String) (code : Option Code) :
    Exhausts (template site kind params code) := by
  refine .get fun heap => ?_
  split
  · exact .pure _
  · have hremember (id : ObjectId) : Exhausts
        (do modify fun heap : Heap => { heap with templates := (site, id) :: heap.templates }
            return id) := (exhausts_modify _).bind fun _ => .pure _
    cases kind with
    | plain => exact (exhausts_allocate _).bind hremember
    | method => exact (exhausts_newMethod _ _ _).bind hremember
    | block => exact (exhausts_newMethod _ _ _).bind hremember

end Heap

namespace Exec

variable {m : Machine} {ctx : Context}

/-- The operation does not fail for the code it is in, nor for a literal. -/
def Spares {α : Type} (x : Exec α) (m : Machine) : Prop :=
  Ends x m (fun _ _ => True) fun fault _ => fault.concernsLiteral = false

theorem Spares.pure {α : Type} (a : α) : Spares (pure a) m := trivial

theorem Spares.bind {α β : Type} {x : Exec α} {f : α → Exec β} (hx : Spares x m) (hf : ∀ a k, Spares (f a) k) :
    Spares (x >>= f) m := by
  unfold Spares
  rw [ends_bind]
  exact Ends.mono hx (fun a k _ => hf a k) fun _ _ h => h

theorem spares_onHeap {α : Type} {x : HeapM α} (h : Heap.Exhausts x) : Spares (onHeap x) m := by
  refine ends_onHeap.2 ((h m.heap).mono (fun _ _ _ => trivial) fun fault heap h => ?_)
  obtain ⟨limit, rfl⟩ := h
  rfl

theorem spares_frame : Spares Exec.frame m := by
  unfold Spares Exec.frame
  rw [ends_bind, ends_get]
  split
  · exact trivial
  · exact rfl

theorem spares_updateFrame (edit : Frame → Frame) : Spares (updateFrame edit) m := by
  unfold Spares Ends updateFrame
  cases m.process.frames with
  | nil => exact rfl
  | cons frame callers => exact trivial

theorem spares_instantiate (site : Site) (kind : ObjectKind) (params : List String) (code : Option Code) :
    Spares (instantiate site kind params code) m :=
  (spares_onHeap (Heap.exhausts_template _ _ _ _)).bind fun _ _ => spares_frame.bind fun _ _ =>
    (spares_updateFrame _).bind fun _ _ => (spares_onHeap (Heap.exhausts_copy _ _)).bind fun _ _ => .pure _

/-- A literal that the pool has can be pushed if there is room. -/
theorem spares_literal {top : Frame} {callers : List Frame} (hframes : m.process.frames = top :: callers)
    {kind : LiteralKind} {index : UInt8} (hnames : top.body.code.Names kind index) :
    Spares (literal ctx kind index) m := by
  rcases hnames with rfl | rfl | ⟨l, hl, rfl, hrange⟩
  · exact .pure _
  · exact .pure _
  · have hliteral : top.body.code.literal index.toNat = .ok l := Code.literal_eq_ok_iff.2 hl
    cases l with
    | int n =>
      obtain ⟨value, hvalue⟩ := Option.isSome_iff_exists.1 (hrange n rfl)
      simp [Spares, literal, Exec.frame, hframes, hliteral, ends_liftExcept, Literal.kind, Value.ofInt?, hvalue]
    | float x =>
      have hpush : Spares (onHeap (ctx.roots.newFloat x)) m := spares_onHeap (Heap.exhausts_newFloat _ _)
      simpa [Spares, literal, Exec.frame, hframes, hliteral, ends_liftExcept, Literal.kind] using hpush
    | text s =>
      have hpush : Spares (onHeap (ctx.roots.intern s)) m := spares_onHeap (Heap.exhausts_intern _ _)
      simpa [Spares, literal, Exec.frame, hframes, hliteral, ends_liftExcept, Literal.kind] using hpush
    | object kind params code =>
      have hpush : Spares (instantiate (top.body.site ++ [index.toNat]) kind params code) m :=
        spares_instantiate _ _ _ _
      simpa [Spares, literal, Exec.frame, hframes, hliteral, ends_liftExcept, Literal.kind] using hpush

theorem fetch_of_decode {top : Frame} {callers : List Frame} {i : Instruction}
    (hframes : m.process.frames = top :: callers) (hdecode : Instruction.decode top.body.code.bytes top.ip = .ok i) :
    Ends fetch m (fun found k => found = i ∧ k.process = m.process.past i) fun _ _ => False := by
  unfold fetch Exec.frame
  simp only [ends_bind, ends_get, hframes, ends_pure, ends_liftExcept, hdecode]
  refine ⟨fun found heq => ?_, by simp⟩
  cases heq
  simp only [note, ends_modify]
  unfold Ends updateFrame Machine.note
  simp [hframes, Process.past, Frame.past]

/-- An instruction that can be read, and whose literal is there, does not fail for the code it is in. -/
theorem step_fault {top : Frame} {callers : List Frame} {i : Instruction} (hm : m.process.Stacked)
    (hframes : m.process.frames = top :: callers) (hdecode : Instruction.decode top.body.code.bytes top.ip = .ok i)
    (hnames : ∀ kind index, i = .pushLiteral kind index → top.body.code.Names kind index) :
    Ends (step ctx) m (fun _ _ => True) fun fault _ =>
      fault.concernsCode = false ∧ ((∃ kind index, i = .pushLiteral kind index) → fault.concernsLiteral = false) := by
  have hpast : (m.process.past i).frames = top.past i :: callers := by
    rw [Process.past, hframes, List.modifyHead_cons]
  rw [step_eq, ends_bind]
  refine (fetch_of_decode hframes hdecode).mono (fun found k h => ?_) fun _ _ h => h.elim
  obtain ⟨rfl, hprocess⟩ := h
  rw [← hprocess] at hpast
  have hgoes (hreturn : found ≠ .returnTop) (hliteral : ∀ kind index, found ≠ .pushLiteral kind index) :
      Ends (execute ctx found) k (fun _ _ => True) fun fault _ =>
        fault.concernsCode = false ∧
          ((∃ kind index, found = .pushLiteral kind index) → fault.concernsLiteral = false) := by
    have hstacked : k.process.Stacked := by
      rw [hprocess]
      exact hm
    have h : Goes (fun _ => True) (execute ctx found) k := goes_execute hstacked hreturn hliteral
    refine h.mono (fun _ _ _ => trivial) fun fault _ h => ⟨h.1, ?_⟩
    rintro ⟨kind, index, heq⟩
    exact absurd heq (hliteral kind index)
  cases found with
  | pushLiteral kind index =>
    have h : Spares (literal ctx kind index >>= push) k :=
      (spares_literal hpast (hnames kind index rfl)).bind fun value _ => spares_updateFrame (·.push value)
    exact Ends.mono h (fun _ _ _ => trivial) fun fault _ h => ⟨Fault.concernsCode_of_concernsLiteral h, fun _ => h⟩
  | returnTop =>
    exact (execute_returnTop (fun _ => True) hpast).mono (fun _ _ _ => trivial) fun _ _ h => h.elim
  | _ => exact hgoes (by simp) (by simp)

end Exec

/-! ## Where bodies come from -/

/-- The body is the unit, open or closed, or the unit of an object literal that such a body pushes. -/
inductive Body.Stems (unit : Body) : Body → Prop
  | whole : Stems unit unit
  | closed : Stems unit { unit with code := unit.code.finalize }
  | part {body : Body} {offset : Nat} {index : UInt8} {kind : ObjectKind} {params : List String} {code : Option Code}
      (h : Stems unit body)
      (hpush : (offset, .pushLiteral .object index) ∈ (Instruction.stream body.code.bytes 0).1)
      (hliteral : body.code.literals[index.toNat]? = some (.object kind params code)) :
      Stems unit ⟨(code.getD {}).finalize, body.site ++ [index.toNat]⟩

/-- The body is the unit as a process runs it, or it was written in the unit. -/
def Body.Spawns (unit body : Body) : Prop :=
  body = { unit with code := unit.code.finalize } ∨ ∃ index path, body.site = unit.site ++ index :: path

namespace Body

variable {unit body : Body}

theorem Stems.site (h : unit.Stems body) : ∃ path, body.site = unit.site ++ path := by
  induction h with
  | whole => exact ⟨[], (List.append_nil _).symm⟩
  | closed => exact ⟨[], (List.append_nil _).symm⟩
  | @part body offset index kind params code h hpush hliteral ih =>
    obtain ⟨path, hpath⟩ := ih
    exact ⟨path ++ [index.toNat], by rw [hpath, List.append_assoc]⟩

theorem Stems.assembled (h : unit.Stems body) (hunit : unit.code.Assembled) : body.code.Assembled := by
  induction h with
  | whole => exact hunit
  | closed => exact hunit.finalize
  | @part body offset index kind params code h hpush hliteral ih =>
    cases code with
    | none => exact Code.Assembled.empty.finalize
    | some inner => exact (ih.inner hpush hliteral).finalize

/-- The unit of a literal is closed when its template is made. -/
theorem Stems.finalized (h : unit.Stems body) {index : Nat} {path : List Nat}
    (hsite : body.site = unit.site ++ index :: path) : body.code.finalized = true := by
  cases h with
  | whole => simp at hsite
  | closed => simp at hsite
  | part h hpush hliteral => exact Code.finalized_finalize _

end Body

/-- If the object is a method, its body has the property. -/
def Object.Runs (P : Body → Prop) (object : Object) : Prop :=
  ∀ method, object.shape.method? = some method → P method.body

namespace Heap

variable {bodies P : Body → Prop} {copies : List Object} {heap heap' : Heap}

theorem All.runs_object (h : heap.All (Object.Runs P)) (id : ObjectId) : (heap.object id).Runs P :=
  h.object (fun _ hmethod => by cases hmethod) id

theorem Makes.runs {object : Object} (h : heap.Makes bodies copies object) (hheap : heap.All (Object.Runs P))
    (hbodies : ∀ body, bodies body → P body) (hcopies : ∀ copy ∈ copies, copy.Runs P) : object.Runs P := by
  intro method hmethod
  cases h with
  | plain payload => cases hmethod
  | own id h => exact hbodies _ (h method (method?_eq_some_iff.1 hmethod))
  | binding => cases hmethod
  | copy id scope payload => exact hheap.runs_object id method hmethod
  | held h => exact hcopies object h method hmethod

/-- Methods run what is written for them, and no edit changes that. -/
theorem Deeds.runs (h : Deeds bodies copies heap heap') (tidy : heap.Tidy) (hheap : heap.All (Object.Runs P))
    (hbodies : ∀ body, bodies body → P body) (hcopies : ∀ copy ∈ copies, copy.Runs P) :
    heap'.All (Object.Runs P) := by
  refine h.all tidy hheap (fun heap object hheap h => h.runs hheap hbodies hcopies)
    (fun edit object id version h method hmethod => h method ?_) fun object index value h => h
  have hbehavior := method?_eq_some_iff.1 hmethod
  exact method?_eq_some_iff.2 ((edit.apply_edited object).behavior_eq.symm.trans hbehavior)

theorem nextUnit_release (heap : Heap) (id : ObjectId) : (heap.release id).nextUnit = heap.nextUnit := by
  unfold release
  split <;> rfl

theorem nextUnit_update (heap : Heap) (id : ObjectId) (edit : Object → Object) :
    (heap.update id edit).nextUnit = heap.nextUnit := by
  unfold update
  split <;> rfl

theorem Deed.nextUnit_le (h : Deed bodies copies heap heap') : heap.nextUnit ≤ heap'.nextUnit := by
  cases h with
  | release id => exact Nat.le_of_eq (heap.nextUnit_release id).symm
  | act h =>
    cases h with
    | make h hok => exact Nat.le_of_eq (nextUnit_allocate hok).symm
    | withdraw hok => exact Nat.le_of_eq ((nextUnit_release _ _).trans (nextUnit_allocate hok)).symm
    | edit id edit => exact Nat.le_of_eq (heap.nextUnit_update id _).symm
    | assign id index value => exact Nat.le_of_eq (heap.nextUnit_update id _).symm
    | aside hcells hfree hlimit hunit => exact hunit

theorem Deeds.nextUnit_le (h : Deeds bodies copies heap heap') : heap.nextUnit ≤ heap'.nextUnit := by
  induction h with
  | refl => exact Nat.le_refl _
  | tail _ h ih => exact Nat.le_trans ih h.nextUnit_le

end Heap

/-! ## Sessions -/

namespace Session

variable {plain : Prop} {w w' : Session}

/-- The body was loaded, or written in what was loaded. -/
def Wrote (w : Session) (body : Body) : Prop := ∃ unit ∈ w.units, unit.Stems body

/-- Units have numbers of their own, and whatever runs comes from one of them. -/
structure Sourced (w : Session) : Prop where
  numbered : ∀ unit ∈ w.units, ∃ n < w.heap.nextUnit, unit.site = [n]
  distinct : (w.units.map (·.site)).Nodup
  tidy : w.heap.Tidy
  objects : w.heap.All (Object.Runs w.Wrote)
  copies : ∀ copy ∈ w.copies, copy.Runs w.Wrote
  frames : ∀ process ∈ w.scheduler.pool, ∀ frame ∈ process.ownFrames, frame.Settled ∧ w.Wrote frame.body

theorem Wrote.mono (hunits : ∀ unit ∈ w.units, unit ∈ w'.units) {body : Body} (h : w.Wrote body) : w'.Wrote body := by
  obtain ⟨unit, hunit, hstems⟩ := h
  exact ⟨unit, hunits unit hunit, hstems⟩

/-- Where a body with a site in the unit comes from. -/
theorem Sourced.stems (hs : w.Sourced) {unit body : Body} (hunit : unit ∈ w.units) (hbody : w.Wrote body)
    {path : List Nat} (hsite : body.site = unit.site ++ path) : unit.Stems body := by
  obtain ⟨other, hother, hstems⟩ := hbody
  obtain ⟨path', hpath'⟩ := hstems.site
  obtain ⟨n, -, hn⟩ := hs.numbered unit hunit
  obtain ⟨n', -, hn'⟩ := hs.numbered other hother
  rw [hsite, hn, hn'] at hpath'
  -- a site begins with the number of its unit, which no other unit has
  have hsame : unit.site = other.site := by
    rw [hn, hn', (List.cons.inj hpath').1]
  rw [List.inj_on_of_nodup_map hs.distinct hunit hother hsame]
  exact hstems

theorem Step.units_cases (h : w.Step plain w') :
    (w'.units = w.units ∧ ∀ copy ∈ w'.copies, copy ∈ w.copies ∨ ∃ id, copy = w.heap.object id) ∨
      ∃ code, w'.units = ⟨code, [w.heap.nextUnit]⟩ :: w.units ∧ w'.copies = w.copies ∧
        w'.heap.nextUnit = w.heap.nextUnit + 1 := by
  cases h with
  | request r h =>
    unfold perform
    split <;> exact .inl ⟨rfl, fun _ => .inl⟩
  | @copy id h =>
    refine .inl ⟨rfl, fun copy hcopy => ?_⟩
    rcases List.mem_cons.1 hcopy with rfl | hcopy
    · exact .inr ⟨id, rfl⟩
    · exact .inl hcopy
  | load code => exact .inr ⟨code, rfl, rfl, rfl⟩
  | learn | add | remove | run | tick | note => exact .inl ⟨rfl, fun _ => .inl⟩

/-- What a process goes on to run was written in what it has run. -/
theorem wrote_advance {m : Machine} (ctx : Context) (hm : m.process.Stacked) (tidy : m.heap.Tidy)
    (hobjects : m.heap.All (Object.Runs w.Wrote))
    (hframes : ∀ frame ∈ m.process.ownFrames, frame.Settled ∧ w.Wrote frame.body) :
    (m.advance ctx).heap.All (Object.Runs w.Wrote) ∧ ((m.advance ctx).process.isFinished = false →
      ∀ frame ∈ (m.advance ctx).process.ownFrames, frame.Settled ∧ w.Wrote frame.body) := by
  have hwrites (body : Body) (hbody : m.Writes body) : w.Wrote body := by
    obtain ⟨top, callers, index, kind, params, code, hframe, hdecode, hliteral, rfl⟩ := hbody
    have htop : top ∈ m.process.ownFrames := List.mem_append_left _ (hframe ▸ List.mem_cons_self)
    obtain ⟨hsettled, unit, hunit, hstems⟩ := hframes top htop
    exact ⟨unit, hunit, hstems.part (hsettled.place.mem_stream hdecode) hliteral⟩
  refine ⟨(Machine.deeds_advance ctx hm).runs tidy hobjects hwrites (by simp), fun hgoing frame hframe => ⟨?_, ?_⟩⟩
  · exact Machine.settled_of_advance hm (fun frame hframe => (hframes frame hframe).1) hgoing hframe
  · cases Machine.origin_of_advance hm hgoing hframe with
    | @old old hold h =>
      rw [(Frame.eq_of_bare h).1]
      exact (hframes old hold).2
    | @moved top callers i hfound hdecode hi h =>
      rw [(Frame.eq_of_bare h).1]
      exact (hframes top (List.mem_append_left _ (hfound ▸ List.mem_cons_self))).2
    | new hacts h =>
      obtain ⟨hmethod, -, rfl⟩ := h
      exact (hacts.deeds.runs tidy hobjects hwrites (by simp)).runs_object _ _ hmethod

theorem Sourced.has (hs : w.Sourced) {body : Body} (h : w.Has body) : w.Wrote body := by
  rcases h with hunit | ⟨method, ⟨id, -, hmethod⟩ | ⟨copy, hcopy, hmethod⟩, rfl⟩
  · exact ⟨body, hunit, .whole⟩
  · exact hs.objects.runs_object id method hmethod
  · exact hs.copies copy hcopy method hmethod

theorem Step.units_subset (h : w.Step plain w') : ∀ unit ∈ w.units, unit ∈ w'.units := by
  intro unit hunit
  rcases h.units_cases with ⟨heq, -⟩ | ⟨code, heq, -⟩
  · exact heq ▸ hunit
  · exact heq ▸ .tail _ hunit

/-- What a step keeps of the heap and of the frames. -/
theorem Step.wrote (h : w.Step plain w') (hw : w.Reachable plain) (hs : w.Sourced) :
    (w.heap.nextUnit ≤ w'.heap.nextUnit ∧ w'.heap.Tidy ∧ w'.heap.All (Object.Runs w'.Wrote)) ∧
      ∀ process ∈ w'.scheduler.pool, ∀ frame ∈ process.ownFrames, frame.Settled ∧ w'.Wrote frame.body := by
  have hobjects : w.heap.All (Object.Runs w'.Wrote) :=
    fun id object hget method hmethod => (hs.objects id object hget method hmethod).mono h.units_subset
  refine h.invariant
    (I := fun heap => w.heap.nextUnit ≤ heap.nextUnit ∧ heap.Tidy ∧ heap.All (Object.Runs w'.Wrote))
    (J := fun process => ∀ frame ∈ process.ownFrames, frame.Settled ∧ w'.Wrote frame.body) hw
    (fun hacts => ⟨hacts.deeds.nextUnit_le, hacts.tidy hs.tidy, ?_⟩) (fun id body hbody frame hframe => ?_)
    (fun ctx m hgoing hlacks hI hJ => ?_) (by simp) ⟨Nat.le_refl _, hs.tidy, hobjects⟩
    fun process hprocess frame hframe => ?_
  · refine hacts.deeds.runs hs.tidy hobjects (fun body h' => (hs.has h').mono h.units_subset) fun copy hcopy => ?_
    exact fun method hmethod => (hs.copies copy hcopy method hmethod).mono h.units_subset
  · have hstart : frame =
        { body := { body with code := body.code.finalize }
          activation := .ref w.roots.lobby
          receiver := .ref w.roots.lobby } := by
      simpa [Process.ownFrames, Process.start] using hframe
    rw [hstart]
    exact ⟨Frame.settled_of_start rfl rfl, body, h.units_subset body hbody, .closed⟩
  · obtain ⟨hle, htidy, hobjects⟩ := hI
    have hdeeds := Machine.deeds_advance ctx hlacks.stacked
    obtain ⟨hobjects', hframes'⟩ := wrote_advance ctx hlacks.stacked htidy hobjects hJ
    exact ⟨⟨Nat.le_trans hle hdeeds.nextUnit_le, hdeeds.tidy htidy, hobjects'⟩, hframes'⟩
  · obtain ⟨hsettled, hwrote⟩ := hs.frames process hprocess frame hframe
    exact ⟨hsettled, hwrote.mono h.units_subset⟩

theorem Step.sourced (h : w.Step plain w') (hw : w.Reachable plain) (hs : w.Sourced) : w'.Sourced := by
  obtain ⟨⟨hnext, htidy, hobjects⟩, hframes⟩ := h.wrote hw hs
  have hmono (object : Object) (h' : object.Runs w.Wrote) : object.Runs w'.Wrote :=
    fun method hmethod => (h' method hmethod).mono h.units_subset
  have hnumbered (unit : Body) (hunit : unit ∈ w.units) : ∃ n < w'.heap.nextUnit, unit.site = [n] := by
    obtain ⟨n, hn, hsite⟩ := hs.numbered unit hunit
    exact ⟨n, Nat.lt_of_lt_of_le hn hnext, hsite⟩
  rcases h.units_cases with ⟨heq, hcopies⟩ | ⟨code, heq, hcopies, hload⟩
  · refine ⟨fun unit hunit => hnumbered unit (heq ▸ hunit), heq ▸ hs.distinct, htidy, hobjects,
      fun copy hcopy => hmono copy ?_, hframes⟩
    rcases hcopies copy hcopy with hold | ⟨id, rfl⟩
    · exact hs.copies copy hold
    · exact hs.objects.runs_object id
  · -- the number of the unit that is loaded is above all that were given
    refine ⟨fun unit hunit => ?_, ?_, htidy, hobjects, fun copy hcopy => hmono copy ?_, hframes⟩
    · rw [heq] at hunit
      rcases List.mem_cons.1 hunit with rfl | hunit
      · exact ⟨w.heap.nextUnit, by omega, rfl⟩
      · exact hnumbered unit hunit
    · rw [heq, List.map_cons, List.nodup_cons]
      refine ⟨fun hmem => ?_, hs.distinct⟩
      obtain ⟨unit, hunit, hsite⟩ := List.mem_map.1 hmem
      obtain ⟨n, hn, hsite'⟩ := hs.numbered unit hunit
      rw [hsite'] at hsite
      exact Nat.ne_of_lt hn (List.cons.inj hsite).1
    · exact hs.copies copy (hcopies ▸ hcopy)

theorem Reachable.sourced (hw : w.Reachable plain) : w.Sourced := by
  induction hw with
  | @start config maxObjects s h =>
    unfold Scheduler.create at h
    split at h
    · rename_i roots heap hcreate
      cases h
      have hacts : Heap.Acts (fun _ => False) [] (Heap.empty maxObjects) heap :=
        (Heap.Rule.governs_create fun _ => trivial : (Heap.Rule.acts _ []).Governs _ _).of_ok hcreate
      have htidy := (Heap.coherent_empty maxObjects).tidy
      exact ⟨by simp, List.nodup_nil, hacts.tidy htidy,
        hacts.deeds.runs htidy (Heap.all_empty _) (fun _ h => h.elim) (by simp), by simp, by simp⟩
    · cases h
  | step hw h ih => exact h.sourced hw ih

end Session

/-! ## Frames of assembled units -/

/-- The frame stands where an instruction of a closed unit begins, all instructions of the unit can be read, and each
literal push among them names an entry of its own kind. -/
structure Frame.Executable (frame : Frame) : Prop where
  finalized : frame.body.code.finalized = true
  readable : (Instruction.stream frame.body.code.bytes 0).2 = none
  boundary : ∃ i, (frame.ip, i) ∈ (Instruction.stream frame.body.code.bytes 0).1 ∧
    Instruction.decode frame.body.code.bytes frame.ip = .ok i
  literals : ∀ offset kind index, (offset, .pushLiteral kind index) ∈ (Instruction.stream frame.body.code.bytes 0).1 →
    frame.body.code.Names kind index

theorem Frame.executable_of_settled {frame : Frame} (hs : frame.Settled) (hcode : frame.body.code.Assembled)
    (hfinalized : frame.body.code.finalized = true) : frame.Executable := by
  obtain ⟨i, hdecode⟩ := hs.place.decode (hcode.returns hfinalized) hs.going
  exact ⟨hfinalized, hcode.readable, ⟨i, hs.place.mem_stream hdecode, hdecode⟩, fun _ _ _ => hcode.names⟩

namespace Session

variable {plain : Prop} {w : Session}

/-- A frame that runs a unit assembled from checked lines, or what is written in it at any depth, is executable, and
its next instruction does not fail for the code it is in, nor for the literal that it pushes. -/
theorem executable (hw : w.Reachable plain) {unit : Body} (hunit : unit ∈ w.units) {lines : List Line}
    (hlines : Line.areChecked false lines = true) (hcode : Code.assemble lines = .ok unit.code)
    {process : Process} (hprocess : process ∈ w.scheduler.pool) {frame : Frame} (hframe : frame ∈ process.ownFrames)
    (hspawns : unit.Spawns frame.body) :
    frame.Executable ∧
      ∀ callers, process.frames = frame :: callers → ∀ fault m',
        Exec.step w.scheduler.context (w.scheduler.machine process) = .error fault m' →
        fault.concernsCode = false ∧ ∀ kind index,
          Instruction.decode frame.body.code.bytes frame.ip = .ok (.pushLiteral kind index) →
          fault.concernsLiteral = false := by
  have hassembled : unit.code.Assembled := Code.assembled_append lines hlines (.empty false) hcode
  obtain ⟨hsettled, hwrote⟩ := hw.sourced.frames process hprocess frame hframe
  have hbody : frame.body.code.Assembled ∧ frame.body.code.finalized = true := by
    rcases hspawns with hwhole | ⟨index, path, hsite⟩
    · rw [hwhole]
      exact ⟨hassembled.finalize, Code.finalized_finalize unit.code⟩
    · have hstems := hw.sourced.stems hunit hwrote hsite
      exact ⟨hstems.assembled hassembled, hstems.finalized hsite⟩
  have hexecutable := Frame.executable_of_settled hsettled hbody.1 hbody.2
  refine ⟨hexecutable, fun callers hframes fault m' hstep => ?_⟩
  obtain ⟨i, hplace, hdecode⟩ := hexecutable.boundary
  have hgoing : process.isFinished = false := by
    cases hdone : process.isFinished with
    | false => rfl
    | true =>
      rw [((hw.upright process hprocess).2 hdone).1] at hframes
      cases hframes
  have hfault := (Exec.step_fault (hw.stacked hprocess hgoing) hframes hdecode fun kind index hi =>
    hexecutable.literals frame.ip kind index (hi ▸ hplace)).of_error hstep
  exact ⟨hfault.1, fun kind index hpush => hfault.2 ⟨kind, index, Except.ok.inj (hdecode.symm.trans hpush)⟩⟩

theorem units_of_rehearsal {lines : List Line} {ticks : Nat} (h : rehearsal lines ticks = some w) :
    ∃ unit, w.units = [unit] ∧ Code.compile lines = .ok unit.code := by
  unfold rehearsal at h
  split at h
  · rename_i s code hs hcode
    cases h
    exact ⟨_, rfl, hcode⟩
  · cases h

/-- The handler of an error is a block that is written in the unit of its process. -/
theorem executable_trial :
    ∃ (w : Session) (unit : Body) (process : Process) (frame : Frame),
      w.Reachable False ∧ w.units = [unit] ∧ process ∈ w.scheduler.pool ∧ process.frames = [frame] ∧
      unit.Spawns frame.body ∧ frame.body.site ≠ unit.site ∧ frame.Executable := by
  have htrial : ((trial .resume 24).any fun w => w.scheduler.pool.any fun process =>
      process.frames.length == 1 && process.frames.all fun frame => w.units.all fun unit =>
        unit.site == frame.body.site.take 1 && 1 < frame.body.site.length) = true := by
    decide +kernel
  obtain ⟨w, hw, hcheck⟩ := (Option.any_eq_true _ _).1 htrial
  obtain ⟨process, hprocess, hcheck⟩ := List.any_eq_true.1 hcheck
  have hreachable : w.Reachable False := reachable_of_trial hw
  obtain ⟨unit, hunits, hcode⟩ := units_of_rehearsal hw
  rw [Code.compile_eq_assemble] at hcode
  simp only [Bool.and_eq_true, beq_iff_eq, List.all_eq_true, decide_eq_true_eq] at hcheck
  obtain ⟨frame, hframes⟩ := List.length_eq_one_iff.1 hcheck.1
  have hunit : unit ∈ w.units := hunits ▸ List.mem_cons_self
  obtain ⟨hsite, hlength⟩ := hcheck.2 frame (hframes ▸ List.mem_cons_self) unit hunit
  have hspawns : unit.Spawns frame.body := by
    refine .inr ⟨frame.body.site[1], frame.body.site.drop 2, ?_⟩
    rw [hsite, List.getElem_cons_drop, List.take_append_drop]
  have hne : frame.body.site ≠ unit.site := by
    intro heq
    rw [heq, hsite, List.length_take] at hlength
    omega
  have hframe : frame ∈ process.ownFrames := List.mem_append_left _ (hframes ▸ List.mem_cons_self)
  exact ⟨w, unit, process, frame, hreachable, hunits, hprocess, hframes, hspawns, hne,
    (executable hreachable hunit (by decide +kernel) hcode hprocess hframe hspawns).1⟩

end Session

end ProtoVm
