import ProtoVm.Proofs.Executable
import ProtoVm.Proofs.Failure
import ProtoVm.Proofs.FreshSession
import ProtoVm.Proofs.Reserve

/-!
# Templates do not show

An object literal is copied from a template that all processes have in common and that is made once. Whoever evaluates
the literal, however often and whatever became of the copies made before, gets the object that was written. The user
edits only what is in hand, and no template ever is.
-/

namespace ProtoVm

/-! ## Literals as they were written -/

namespace Code

/-- The unit with its closing returns. One that was closed before has them. -/
def closed (code : Code) : Code :=
  if code.finalized then code else ⟨code.bytes ++ padding, code.literals.map Literal.finalize, true⟩

theorem finalize_eq_closed (code : Code) : code.finalize = code.closed := by
  rcases code with ⟨bytes, literals, finalized⟩
  cases finalized with
  | false => simp [finalize, closed, finalizeLiterals_eq_map]
  | true => rfl

/-- The unit of the object literal that a path of pool indices leads to. -/
def nested? (code : Code) : List Nat → Option Code
  | [] => some code
  | index :: path =>
    match code.literals[index]? with
    | some (.object _ _ inner) => (inner.getD {}).nested? path
    | _ => none

theorem nested?_append {code enclosing : Code} {path : List Nat} (h : code.nested? path = some enclosing) {index : Nat}
    {kind : ObjectKind} {params : List String} {inner : Option Code}
    (hl : enclosing.literals[index]? = some (.object kind params inner)) :
    code.nested? (path ++ [index]) = some (inner.getD {}) := by
  induction path generalizing code with
  | nil =>
    cases h
    simp [nested?, hl]
  | cons next path ih =>
    simp only [List.cons_append, nested?] at h ⊢
    split at h
    · exact ih h
    · cases h

/-- A literal of a closed unit was there before the unit was closed. -/
theorem literal_of_finalize {code : Code} {index : Nat} {kind : ObjectKind} {params : List String}
    {inner : Option Code} (h : code.finalize.literals[index]? = some (.object kind params inner)) :
    ∃ inner', code.literals[index]? = some (.object kind params inner') ∧
      (inner'.getD {}).finalize = (inner.getD {}).finalize := by
  rcases code with ⟨bytes, literals, finalized⟩
  cases finalized with
  | true => exact ⟨inner, h, rfl⟩
  | false =>
    simp only [finalize, finalizeLiterals_eq_map, List.getElem?_map, Option.map_eq_some_iff] at h
    obtain ⟨l, hl, heq⟩ := h
    cases l with
    | int | float | text => simp [Literal.finalize] at heq
    | object kind' params' inner' =>
      cases inner' with
      | none =>
        simp only [Literal.finalize] at heq
        cases heq
        exact ⟨none, hl, rfl⟩
      | some unit =>
        simp only [Literal.finalize] at heq
        cases heq
        exact ⟨some unit, hl, unit.finalize_finalize.symm⟩

end Code

/-- A body has the code that its site leads to in the unit from which it stems, but may have been closed. -/
theorem Body.Stems.nested {unit body : Body} (h : unit.Stems body) :
    ∃ path enclosing, body.site = unit.site ++ path ∧ unit.code.nested? path = some enclosing ∧
      enclosing.finalize = body.code.finalize := by
  induction h with
  | whole => exact ⟨[], unit.code, (List.append_nil _).symm, rfl, rfl⟩
  | closed => exact ⟨[], unit.code, (List.append_nil _).symm, rfl, unit.code.finalize_finalize.symm⟩
  | @part body offset index kind params code h hpush hliteral ih =>
    obtain ⟨path, enclosing, hsite, hnested, hclosed⟩ := ih
    obtain ⟨inner, hinner, heq⟩ := Code.literal_finalize hliteral
    obtain ⟨raw, hraw, hfinal⟩ := Code.literal_of_finalize (hclosed ▸ hinner)
    refine ⟨path ++ [index.toNat], raw.getD {}, ?_, Code.nested?_append hnested hraw, ?_⟩
    · rw [hsite, List.append_assoc]
    · rw [hfinal, heq, Code.finalize_finalize]

/-- The object that a literal stands for, made without a template. -/
def Object.ofLiteral (site : Site) (kind : ObjectKind) (params : List String) (code : Option Code) (scope : Value)
    (shape bindings : ShapeId) : Object where
  shape :=
    { id := shape
      slots := []
      parents := []
      version := 0
      behavior := match kind with
        | .plain => .data
        | .method => .method ⟨⟨(code.getD {}).closed, site⟩, params, false, bindings⟩
        | .block => .method ⟨⟨(code.getD {}).closed, site⟩, params, true, bindings⟩ }
  slotValues := []
  parentValues := []
  scope := some scope
  payload := .none

theorem Object.IsTemplate.copy {params : List String} {code : Option Code} {site : Site} {kind : ObjectKind}
    {object : Object} (h : object.IsTemplate params ⟨(code.getD {}).finalize, site⟩ kind) (scope : Value) :
    ∃ shape bindings, { object with scope := some scope } = ofLiteral site kind params code scope shape bindings := by
  cases h with
  | plain => exact ⟨0, 0, rfl⟩
  | method id bindings =>
    refine ⟨id, bindings, ?_⟩
    rw [Code.finalize_eq_closed]
    rfl
  | block id bindings =>
    refine ⟨id, bindings, ?_⟩
    rw [Code.finalize_eq_closed]
    rfl

namespace Session

variable {plain : Prop} {w w' : Session}

/-- The object literal was written at the site, in one of the units in hand. -/
def HasLiteral (w : Session) (site : Site) (kind : ObjectKind) (params : List String) (code : Option Code) : Prop :=
  ∃ unit ∈ w.units, ∃ path index enclosing, site = unit.site ++ path ++ [index] ∧
    unit.code.nested? path = some enclosing ∧ enclosing.literals[index]? = some (.object kind params code)

/-- A literal of the code that a process runs was written at the site that it is known by. -/
theorem Wrote.hasLiteral {body : Body} (h : w.Wrote body) {index : Nat} {kind : ObjectKind} {params : List String}
    {inner : Option Code} (hl : body.code.literals[index]? = some (.object kind params inner)) :
    ∃ code, w.HasLiteral (body.site ++ [index]) kind params code ∧
      (code.getD {}).finalize = (inner.getD {}).finalize := by
  obtain ⟨unit, hunit, hstems⟩ := h
  obtain ⟨path, enclosing, hsite, hnested, hclosed⟩ := hstems.nested
  obtain ⟨inner', hinner', heq⟩ := Code.literal_finalize hl
  obtain ⟨code, hcode, hfinal⟩ := Code.literal_of_finalize (hclosed ▸ hinner')
  exact ⟨code, ⟨unit, hunit, path, index, enclosing, by rw [hsite], hnested, hcode⟩, hfinal.trans heq⟩

/-- One literal is written at a site. -/
theorem Sourced.literal_eq (hs : w.Sourced) {site : Site} {kind kind' : ObjectKind} {params params' : List String}
    {code code' : Option Code} (h : w.HasLiteral site kind params code) (h' : w.HasLiteral site kind' params' code') :
    kind' = kind ∧ params' = params ∧ code' = code := by
  obtain ⟨unit, hunit, path, index, enclosing, hsite, hnested, hl⟩ := h
  obtain ⟨unit', hunit', path', index', enclosing', hsite', hnested', hl'⟩ := h'
  obtain ⟨n, -, hn⟩ := hs.numbered unit hunit
  obtain ⟨n', -, hn'⟩ := hs.numbered unit' hunit'
  obtain ⟨hplace, hindex⟩ := List.append_inj' (hsite.symm.trans hsite') rfl
  obtain ⟨hunits, rfl⟩ := List.append_inj hplace (by rw [hn, hn']; rfl)
  obtain rfl : index = index' := by simpa using hindex
  obtain rfl : unit = unit' := List.inj_on_of_nodup_map hs.distinct hunit hunit' hunits
  rw [hnested] at hnested'
  cases hnested'
  rw [hl] at hl'
  cases hl'
  exact ⟨rfl, rfl, rfl⟩

/-! ## Turns -/

/-- What copies of the literal at a site are made from. -/
def Fits (w : Session) (site : Site) (object : Object) : Prop :=
  ∃ kind params code, w.HasLiteral site kind params code ∧
    object.IsTemplate params ⟨(code.getD {}).finalize, site⟩ kind

/-- What has to hold of a machine while its process has a turn. -/
structure Guards (plain : Prop) (w : Session) (others : List Frame) (r : Reserve) (m : Machine) : Prop where
  fits_eq : r.fits = w.Fits
  hides : m.Hides r w.roots
  sound : m.Sound (w.policy plain) w.roots others
  lacks : m.process.isFinished = false → m.process.Lacks 0
  objects : m.heap.All (Object.Runs w.Wrote)
  frames : ∀ frame ∈ m.process.ownFrames, frame.Settled ∧ w.Wrote frame.body

variable {others : List Frame} {r : Reserve} {m : Machine}

/-- The template that is made for a literal looks as it has to. -/
theorem Guards.fits (h : w.Guards plain others r m) {top : Frame} {callers : List Frame} {index : UInt8}
    (heval : m.Evaluates top callers index) {kind : ObjectKind} {params : List String} {inner : Option Code}
    (hl : top.body.code.literals[index.toNat]? = some (.object kind params inner)) {object : Object}
    (hobject : object.IsTemplate params ⟨(inner.getD {}).finalize, top.literalSite index⟩ kind) :
    r.fits (top.literalSite index) object := by
  have htop : top ∈ m.process.ownFrames := List.mem_append_left _ (heval.frames_eq ▸ List.mem_cons_self)
  obtain ⟨code, hcode, heq⟩ := (h.frames top htop).2.hasLiteral hl
  rw [h.fits_eq]
  exact ⟨kind, params, code, hcode, heq ▸ hobject⟩

theorem Guards.advance (h : w.Guards plain others r m) (hgoing : m.process.isFinished = false) :
    ∃ r', r.Extends m.heap r' ∧ w.Guards plain others r' (m.advance w.scheduler.context) := by
  have hlacks := h.lacks hgoing
  obtain ⟨r', hext, hhides⟩ := Machine.hides_advance w.scheduler.context h.hides h.sound hgoing
    fun top callers index kind params code object heval hl => h.fits heval hl
  have hsound := (Machine.follows_advance h.sound : m.Follows _ _ _ _ (m.advance w.scheduler.context)).sound
  obtain ⟨hobjects, hframes⟩ := wrote_advance w.scheduler.context hlacks.stacked h.hides.heap.tidy h.objects h.frames
  refine ⟨r', hext, hext.fits_eq.trans h.fits_eq, hhides, hsound, Machine.advance_lacks hlacks, hobjects, ?_⟩
  cases hdone : (m.advance w.scheduler.context).process.isFinished with
  | false => exact hframes hdone
  | true =>
    -- a process that has just ended has no frames
    rcases Machine.advance_finish w.scheduler.context hlacks.stacked with heq | ⟨outcome, hprocess⟩
    · rw [Process.isFinished, heq] at hdone
      rw [Process.isFinished, hdone] at hgoing
      cases hgoing
    · rw [hprocess]
      simp

theorem Guards.run (h : w.Guards plain others r m) (budget : Nat) :
    ∃ r', r.Extends m.heap r' ∧ w.Guards plain others r' (m.run w.scheduler.context budget) := by
  induction budget generalizing m r with
  | zero => exact ⟨r, .refl r _, h⟩
  | succ budget ih =>
    unfold Machine.run
    split
    · exact ⟨r, .refl r _, h⟩
    · rename_i hgoing
      have hgoing := Bool.eq_false_iff.2 hgoing
      obtain ⟨middle, hext, hmiddle⟩ := h.advance hgoing
      obtain ⟨r', hext', hrun⟩ := ih hmiddle
      refine ⟨r', hext.trans hext' fun id hid => ?_, hrun⟩
      exact (Machine.deeds_advance w.scheduler.context (h.lacks hgoing).stacked).issued h.hides.heap.tidy hid

/-! ## Requests -/

/-- No value in the session names a template. -/
structure Hides (w : Session) (r : Reserve) : Prop where
  fits_eq : r.fits = w.Fits
  heap : w.heap.Hides r w.roots
  frames : ∀ frame ∈ w.frames, frame.Shuns r
  pooled : ∀ process ∈ w.scheduler.pool, ∀ outcome, process.outcome = some outcome → r.Outside outcome.result
  results : ∀ (process : ProcessId) (outcome : Outcome), w.scheduler.outcomes[process]? = some (some outcome) →
    r.Outside outcome.result
  known : ∀ value ∈ w.known, r.Outside value
  copies : ∀ copy ∈ w.copies, copy.Shuns r

end Session

namespace Request

open Heap

variable {r : Reserve} {roots : Roots} {heap : Heap}

theorem upholds_install (hh : heap.Hides r roots) {target : ObjectId} (htarget : r.Outside (.ref target))
    (natives : List Native) : Heap.Upholds r roots (Roots.install target natives) heap fun _ => True := by
  induction natives generalizing heap with
  | nil => exact .pure hh trivial
  | cons native natives ih =>
    rw [install_cons]
    refine (upholds_newObjectWith hh _).bind fun object _ hh hobject => Upholds.bind (.modify ?_) fun _ _ hh _ => ih hh
    exact hh.restructure htarget (.addSlot native.selector (.ref object)) (by simpa [Edit.brought] using hobject)

/-- A request that names no template leaves the templates alone, and hands none of them out. -/
theorem upholds_run (hh : heap.Hides r roots) {request : Request}
    (htarget : ∀ id, request.target? = some id → r.Outside (.ref id))
    (hnamed : ∀ value ∈ request.named, r.Outside value) (hstored : ∀ value ∈ request.stored, r.Outside value)
    (hcopy : ∀ copy, request = .allocate copy → copy.Shuns r) :
    Heap.Upholds r roots (request.run roots) heap fun values => ∀ value ∈ values, r.Outside value := by
  have href {x : HeapM ObjectId} (hx : Heap.Upholds r roots x heap fun id => r.Outside (.ref id)) :
      Heap.Upholds r roots (do return [Value.ref (← x)]) heap fun values => ∀ value ∈ values, r.Outside value :=
    hx.bind fun _ _ hh hid => .pure hh (by simpa using hid)
  have hvalue {x : HeapM Value} (hx : Heap.Upholds r roots x heap r.Outside) :
      Heap.Upholds r roots (do return [← x]) heap fun values => ∀ value ∈ values, r.Outside value :=
    hx.bind fun _ _ hh hid => .pure hh (by simpa using hid)
  have hmodify {edit : Heap → Heap} (h : (edit heap).Hides r roots) :
      Heap.Upholds r roots (do modify edit; return ([] : List Value)) heap
        fun values => ∀ value ∈ values, r.Outside value :=
    Upholds.bind (.modify h) fun _ _ hh _ => .pure hh (by simp)
  cases request with
  | newObject => exact href (upholds_newObject hh)
  | newObjectWith behavior => exact href (upholds_newObjectWith hh behavior)
  | newMethod body params isBlock => exact href (upholds_newMethod hh body params isBlock)
  | allocate copy => exact href (upholds_allocate hh (hcopy copy rfl))
  | clone id => exact href (upholds_copy hh id fun _ h => h)
  | instantiate template scope => exact href (upholds_instantiate hh template (hnamed scope (by simp [named])))
  | cloneWithPayload prototype payload =>
    exact href (upholds_cloneWithPayload hh prototype fun value hvalue => hstored value (by simp [stored, hvalue]))
  | addSlot target name value =>
    exact hmodify (hh.restructure (htarget target rfl) (.addSlot name value) hstored)
  | insertSlot target position name value =>
    exact hmodify (hh.restructure (htarget target rfl) (.insertSlot position name value) hstored)
  | eraseSlot target name =>
    refine hmodify ?_
    unfold Heap.eraseSlot
    split
    · exact hh.restructure (htarget target rfl) (.eraseSlot name) (by simp [Edit.brought])
    · exact hh
  | addParent target name value =>
    exact hmodify (hh.restructure (htarget target rfl) (.addParent name value) hstored)
  | eraseParent target name =>
    refine hmodify ?_
    unfold Heap.eraseParent
    split
    · exact hh.restructure (htarget target rfl) (.eraseParent name) (by simp [Edit.brought])
    · exact hh
  | setSlot target name value => exact hmodify (hh.setSlot target name (hstored value List.mem_cons_self))
  | newString s => exact hvalue (upholds_newString hh s)
  | newFloat x => exact hvalue (upholds_newFloat hh x)
  | intern s => exact hvalue (upholds_intern hh s)
  | install target natives =>
    exact (upholds_install hh (htarget target rfl) natives).bind fun _ _ hh _ => .pure hh (by simp)
  | slotLookup start name => exact hmodify (hh.slotLookup_heap start name)
  | parentLookup start name =>
    refine hmodify ?_
    rcases heap.parentLookup_heap roots start name with heq | ⟨holder, value, -, heq⟩ <;> rw [heq]
    · exact hh
    · exact hh.sameStore ⟨rfl, rfl, rfl, rfl, rfl⟩

end Request

/-! ## What the user can read off -/

namespace Heap.Hides

variable {r : Reserve} {roots : Roots} {heap : Heap}

/-- Searches that begin outside the reserve stay there. -/
theorem walk (hh : heap.Hides r roots) {start : ObjectId} (hstart : r.Outside (.ref start))
    (defines : Object → Option Value) : ∀ id ∈ (heap.walk roots start defines).visited, r.Outside (.ref id) := by
  refine walk_visited (fun id hid next hnext => ?_) hstart
  obtain ⟨value, hvalue, rfl⟩ := List.mem_map.1 hnext
  exact hh.startOf ((hh.object id).edges hvalue)

theorem lookup_values (hh : heap.Hides r roots) {start : ObjectId} (hstart : r.Outside (.ref start)) {name : String}
    (hplain : (heap.slotLookup roots start name).result = heap.plainLookup roots start name) :
    ∀ value ∈ (heap.slotLookup roots start name).result.values, r.Outside value := by
  cases hresult : (heap.slotLookup roots start name).result with
  | missing => simp [Lookup.values]
  | found holder found => simpa [Lookup.values] using hh.slotLookup hresult
  | ambiguous first second =>
    rw [hresult, plainLookup] at hplain
    split at hplain
    · cases hplain
    · obtain ⟨hfirst, hsecond⟩ := walk_ambiguous hplain.symm
      have hwalk := hh.walk hstart (·.slot? name)
      simpa [Lookup.values] using ⟨hwalk first hfirst, hwalk second hsecond⟩

end Heap.Hides

/-- The object that an action of the user edits, or in which its search begins. -/
def Action.target? : Action → Option ObjectId
  | .request r => r.target?
  | _ => none

namespace Session

variable {plain : Prop} {w w' : Session} {r : Reserve}

theorem Readable.outside {value : Value} (h : w.Readable value) (hs : w.Sound plain) (hh : w.Hides r) :
    r.Outside value := by
  cases h with
  | fixnum n => exact Reserve.outside_fixnum n
  | root hid => exact hh.heap.root hid
  | content hid hvalue => exact (hh.heap.object _).held hvalue
  | scope hid hscope => exact (hh.heap.object _).scope value hscope
  | copied hcopy hvalue => exact hvalue.elim (hh.copies _ hcopy).held ((hh.copies _ hcopy).scope value)
  | interned hid => exact hh.heap.strings _ hid
  | result ho => exact hh.results _ _ ho
  | @found id name _ hid hvalue =>
    have hplain := Heap.slotLookup_result hs.heap.coherent hs.remembers (hs.known _ hid).isLive name
    exact hh.heap.lookup_values (hh.known _ hid) hplain value hvalue
  | passed hid htarget => exact hh.heap.walk (hh.known _ hid) _ _ htarget

/-! ## The steps of a session -/

/-- Like `Reachable`, but the user edits only what is in hand, and begins searches only there. -/
inductive Handled (plain : Prop) : Session → Prop
  | start {config : Config} {maxObjects : Nat} {s : Scheduler} (h : Scheduler.create config maxObjects = .ok s) :
      Handled plain { scheduler := s }
  | act {w : Session} {action : Action} (hw : Handled plain w) (h : w.Permits plain action)
      (htarget : ∀ id, action.target? = some id → .ref id ∈ w.known) : Handled plain (w.after action)

theorem Handled.reachable (hw : w.Handled plain) : w.Reachable plain := by
  induction hw with
  | start h => exact .start h
  | act _ h _ ih => exact .step ih h.step

theorem Hides.begin (hw : w.Reachable plain) (hh : w.Hides r) {process : Process} {rest : List Process}
    (hpool : w.scheduler.pool.Perm (process :: rest)) :
    w.Guards plain (rest.flatMap (·.ownFrames)) r (w.scheduler.machine process) := by
  have hprocess : process ∈ w.scheduler.pool := hpool.mem_iff.2 List.mem_cons_self
  exact ⟨hh.fits_eq,
    ⟨hh.heap, fun frame hframe => hh.frames frame (List.mem_flatMap.2 ⟨process, hprocess, hframe⟩),
      hh.pooled process hprocess⟩,
    hw.sound.toSound.machine hpool, hw.lacks hprocess, hw.sourced.objects, hw.sourced.frames process hprocess⟩

theorem Hides.turns (hw : w.Reachable plain) (hh : w.Hides r) {s : Scheduler} (h : w.scheduler.Turns s) :
    ∃ r', Hides { w with scheduler := s } r' := by
  have hs := hw.sound
  cases h with
  | @idle pool hsublist journal =>
    refine ⟨r, { hh with frames := fun frame hframe => ?_, pooled := fun process hprocess => ?_ }⟩
    · obtain ⟨process, hprocess, hframe⟩ := List.mem_flatMap.1 hframe
      exact hh.frames frame (List.mem_flatMap.2 ⟨process, hsublist.subset hprocess, hframe⟩)
    · exact hh.pooled process (hsublist.subset hprocess)
  | @turn process rest pool budget journal hpool hgoing hpool' =>
    obtain ⟨r', hext, hm⟩ := (hh.begin hw hpool).run budget
    have hrest {other : Process} (hother : other ∈ rest) : other ∈ w.scheduler.pool := hpool.mem_iff.2 (.tail _ hother)
    refine ⟨r', hm.fits_eq, hm.hides.heap, fun frame hframe => ?_, fun other hother outcome ho => ?_,
      fun other outcome ho => ?_, fun value hvalue => ?_, fun copy hcopy => ?_⟩
    · obtain ⟨other, hother, hframe⟩ := List.mem_flatMap.1 hframe
      rcases List.mem_cons.1 (hpool'.mem_iff.1 hother) with rfl | hother
      · exact hm.hides.frames frame hframe
      · have hold : frame ∈ w.frames := List.mem_flatMap.2 ⟨other, hrest hother, hframe⟩
        exact hs.heap.frame_shuns hext hold (hh.frames frame hold)
    · rcases List.mem_cons.1 (hpool'.mem_iff.1 hother) with rfl | hother
      · exact hm.hides.outcome outcome ho
      · exact hext.outside (hh.pooled other (hrest hother) outcome ho)
          (hs.pooled other (hrest hother) outcome ho).lasts.issued
    · rw [Array.getElem?_setIfInBounds] at ho
      split at ho
      · split at ho
        · exact hm.hides.outcome outcome (Option.some.inj ho)
        · cases ho
      · exact hext.outside (hh.results other outcome ho) (hs.results other outcome ho).lasts.issued
    · exact hext.outside (hh.known value hvalue) (hs.known value hvalue).issued
    · obtain ⟨hheld, hscope⟩ := hs.copies copy hcopy
      exact (hh.copies copy hcopy).extend hext (fun value hvalue => (hheld value hvalue).lasts.issued)
        fun value hvalue => (hscope value hvalue).issued

theorem Hides.perform (hh : w.Hides r) {request : Request} (h : w.Allows plain request)
    (htarget : ∀ id, request.target? = some id → .ref id ∈ w.known) : (w.perform request).Hides r := by
  have hrun := Request.upholds_run hh.heap (fun id hid => hh.known _ (htarget id hid))
    (fun value hvalue => hh.known value (h.named value hvalue))
    (fun value hvalue => hh.known value (h.stored value hvalue)) fun copy hcopy => hh.copies copy (h.copy copy hcopy)
  unfold Session.perform
  split
  · obtain ⟨hheap, hvalues⟩ := hrun.of_ok ‹_›
    exact { hh with heap := hheap, known := List.forall_mem_append.2 ⟨hvalues, hh.known⟩ }
  · exact { hh with heap := hrun.of_error ‹_› }

theorem HasLiteral.mono (hunits : ∀ unit ∈ w.units, unit ∈ w'.units) {site : Site} {kind : ObjectKind}
    {params : List String} {code : Option Code} (h : w.HasLiteral site kind params code) :
    w'.HasLiteral site kind params code := by
  obtain ⟨unit, hunit, hliteral⟩ := h
  exact ⟨unit, hunits unit hunit, hliteral⟩

theorem Hides.load (hh : w.Hides r) (code : Code) : ∃ r', (w.after (.load code)).Hides r' := by
  refine ⟨⟨r.table, (w.after (.load code)).Fits⟩, rfl, ?_, fun frame hframe => { hh.frames frame hframe with },
    hh.pooled, hh.results, hh.known, fun copy hcopy => { hh.copies copy hcopy with }⟩
  refine ⟨⟨hh.heap.tidy.free_nodup, hh.heap.tidy.free_empty, hh.heap.tidy.size_le⟩, hh.heap.templates_eq,
    fun entry hentry => ?_, hh.heap.roots, hh.heap.strings,
    fun id object hget => { hh.heap.objects id object hget with }⟩
  obtain ⟨object, hget, hslots, hfits⟩ := hh.heap.kept entry hentry
  rw [hh.fits_eq] at hfits
  obtain ⟨kind, params, inner, hliteral, htemplate⟩ := hfits
  exact ⟨object, hget, hslots, kind, params, inner, hliteral.mono fun _ => .tail _, htemplate⟩

theorem Hides.add (hh : w.Hides r) (body : Body) : Hides { w with scheduler := (w.scheduler.addProcess body).2 } r := by
  have hlobby : r.Outside (.ref w.roots.lobby) := hh.heap.root (by simp [Roots.ids])
  refine { hh with frames := fun frame hframe => ?_, pooled := fun process hprocess outcome ho => ?_,
                   results := fun process outcome ho => ?_ }
  · obtain ⟨process, hprocess, hframe⟩ := List.mem_flatMap.1 hframe
    rcases List.mem_append.1 hprocess with hold | hnew
    · exact hh.frames frame (List.mem_flatMap.2 ⟨process, hold, hframe⟩)
    · rw [List.mem_singleton.1 hnew] at hframe
      obtain rfl : frame = _ := by simpa [Process.ownFrames, Process.start] using hframe
      exact ⟨hlobby, by simp, hlobby, by simp, by simp [FrameKind.error?], by simp⟩
  · rcases List.mem_append.1 hprocess with hold | hnew
    · exact hh.pooled process hold outcome ho
    · rw [List.mem_singleton.1 hnew] at ho
      cases ho
  · simp only [Scheduler.addProcess, Array.getElem?_push] at ho
    split at ho
    · cases ho
    · exact hh.results process outcome ho

theorem Hides.after (hw : w.Reachable plain) (hh : w.Hides r) {action : Action} (h : w.Permits plain action)
    (htarget : ∀ id, action.target? = some id → .ref id ∈ w.known) : ∃ r', (w.after action).Hides r' := by
  cases action with
  | request request => exact ⟨r, hh.perform h htarget⟩
  | learn value =>
    exact ⟨r, { hh with known := List.forall_mem_cons.2 ⟨Readable.outside h hw.sound hh, hh.known⟩ }⟩
  | copy id => exact ⟨r, { hh with copies := List.forall_mem_cons.2 ⟨hh.heap.object id, hh.copies⟩ }⟩
  | load code => exact hh.load code
  | add unit =>
    simp only [Session.after, List.getElem?_eq_getElem h]
    exact ⟨r, hh.add _⟩
  | remove id => exact hh.turns hw (w.scheduler.turns_removeProcess id)
  | run limit => exact hh.turns hw (w.scheduler.turns_runOnce limit)
  | tick index => exact hh.turns hw (w.scheduler.turns_tick index)
  | note event => exact ⟨r, { hh with }⟩

/-- No template comes into the hands of the user or of a program. -/
theorem Handled.hides (hw : w.Handled plain) : ∃ r, w.Hides r := by
  induction hw with
  | @start config maxObjects s h =>
    have hstart : Reachable plain { scheduler := s } := .start h
    obtain ⟨houtcomes, hpool⟩ : s.outcomes = #[] ∧ s.pool = [] := by
      unfold Scheduler.create at h
      split at h <;> cases h
      exact ⟨rfl, rfl⟩
    have hnone (value : Value) : Reserve.Outside ⟨[], Fits { scheduler := s }⟩ value := fun _ hentry => (nomatch hentry)
    refine ⟨⟨[], Fits { scheduler := s }⟩, rfl, ⟨hstart.sound.heap.coherent.tidy,
      (hstart.fresh houtcomes).idle.templates_eq, fun _ hentry => (nomatch hentry), fun _ _ => hnone _,
      fun _ _ => hnone _, fun _ _ _ => ?_⟩, ?_, ?_, ?_, ?_, ?_⟩
    · exact ⟨fun _ _ => hnone _, fun _ _ => hnone _, fun _ _ => hnone _, fun _ _ => hnone _⟩
    · simp [Session.frames, Scheduler.frames, hpool]
    · simp [hpool]
    · simp [houtcomes]
    · simp
    · simp
  | act hw h htarget ih =>
    obtain ⟨r, hh⟩ := ih
    exact hh.after hw.reachable h htarget

/-! ## The copies of a literal -/

/-- Whoever evaluates an object literal, and whatever became of its other copies, gets a new object that is the one
which was written, in the call that evaluates it. -/
theorem builds_of_evaluates (hw : w.Handled plain) {process : Process} (hprocess : process ∈ w.scheduler.pool)
    {elapsed : Nat} {m k : Machine} (hm : (w.scheduler.machine process).run w.scheduler.context elapsed = m)
    {top : Frame} {callers : List Frame} {index : UInt8} (heval : m.Evaluates top callers index)
    (hstep : Exec.step w.scheduler.context m = .ok () k) :
    ∃ kind params code id shape bindings, w.HasLiteral (top.literalSite index) kind params code ∧
      (∃ inner, top.body.code.literals[index.toNat]? = some (.object kind params inner) ∧
        (inner.getD {}).closed = (code.getD {}).closed) ∧
      k.process.frames = (top.after (.pushLiteral .object index)).push (.ref id) :: callers ∧ ¬m.heap.Issued id ∧
      k.heap.get? id =
        some (Object.ofLiteral (top.literalSite index) kind params code top.activation shape bindings) := by
  obtain ⟨r, hh⟩ := hw.hides
  obtain ⟨before, after, hpool⟩ := List.append_of_mem hprocess
  obtain ⟨r', -, hguards⟩ := (hh.begin hw.reachable (hpool ▸ List.perm_middle)).run elapsed
  rw [hm] at hguards
  obtain ⟨kind, params, inner, template, heap, id, hl, hmade, hcopy, hprocess⟩ := heval.of_ok hstep
  have htemplate := hguards.sound.template hguards.hides.heap (top.literalSite index) fun object =>
    hguards.fits heval hl
  obtain ⟨r'', hext, hheap, hentry, hissued⟩ := htemplate.of_ok hmade
  obtain ⟨object, hget, -, hfits⟩ := hheap.kept _ hentry
  rw [hext.fits_eq, hguards.fits_eq] at hfits
  obtain ⟨kind', params', code, hcode, hobject⟩ := hfits
  -- the template was made for the literal that is evaluated, as there is one literal at a site
  have htop : top ∈ m.process.ownFrames := List.mem_append_left _ (heval.frames_eq ▸ List.mem_cons_self)
  obtain ⟨code', hcode', hclosed⟩ := (hguards.frames top htop).2.hasLiteral hl
  obtain ⟨rfl, rfl, rfl⟩ := hw.reachable.sourced.literal_eq hcode' hcode
  rw [Code.finalize_eq_closed, Code.finalize_eq_closed] at hclosed
  have hadds := Heap.instantiate_adds hheap.tidy hcopy
  rw [Heap.object_of_get? hget] at hadds
  obtain ⟨shape, bindings, heq⟩ := hobject.copy top.activation
  refine ⟨kind', params', code, id, shape, bindings, hcode, ⟨inner, hl, hclosed.symm⟩, by rw [hprocess], ?_, ?_⟩
  · exact fun hold => hadds.unissued (hissued id hold)
  · rw [hadds.get?_self, heq]

/-- Does what is permitted with what is in hand and leaves out the rest. -/
def handle (w : Session) (action : Action) : Session :=
  if w.concedes action && action.target?.all (.ref · ∈ w.known) then w.after action else w

theorem Handled.handles (hw : w.Handled False) (actions : List Action) : (actions.foldl handle w).Handled False := by
  induction actions generalizing w with
  | nil => exact hw
  | cons action actions ih =>
    refine ih ?_
    unfold handle
    split
    · rename_i hhandles
      obtain ⟨hconcedes, htarget⟩ := Bool.and_eq_true_iff.1 hhandles
      exact hw.act (permits_of_concedes hconcedes) fun id hid => by simpa [hid] using htarget
    · exact hw

/-- Two processes have one unit, which is a block. The first has ended with its copy of the block, and the user has
given the copy a slot. -/
def editedCopy : Option Session :=
  match Scheduler.create {} 100, Code.compile [.push (.object .block ["x"] (some [.push (.int 7)]))] with
  | .ok s, .ok code =>
    let actions : List Action :=
      [.load code, .add 0, .add 0, .run 10, .learn (.ref ⟨49, 0⟩), .request (.addSlot ⟨49, 0⟩ "own" (.ref ⟨49, 0⟩))]
    some (actions.foldl handle { scheduler := s })
  | _, _ => none

theorem handled_of_editedCopy (h : editedCopy = some w) : w.Handled False := by
  unfold editedCopy at h
  split at h
  · rename_i hs _
    obtain rfl := Option.some.inj h
    exact Handled.handles (.start hs) _
  · cases h

/-- The second process gets the block without the slot, though from the same template. -/
theorem builds_of_evaluates_edited :
    ∃ (w : Session) (process : Process) (k : Machine) (top : Frame) (callers : List Frame) (id : ObjectId),
      w.Handled False ∧ process ∈ w.scheduler.pool ∧ (w.scheduler.machine process).Evaluates top callers 0 ∧
      (w.heap.templates.lookup (top.literalSite 0)).isSome = true ∧
      (w.heap.object ⟨49, 0⟩).slotValues = [.ref ⟨49, 0⟩] ∧
      Exec.step w.scheduler.context (w.scheduler.machine process) = .ok () k ∧
      k.process.frames = (top.after (.pushLiteral .object 0)).push (.ref id) :: callers ∧ ¬w.heap.Issued id ∧
      ∃ kind params code shape bindings, w.HasLiteral (top.literalSite 0) kind params code ∧
        k.heap.get? id =
          some (Object.ofLiteral (top.literalSite 0) kind params code top.activation shape bindings) := by
  have hedited : (editedCopy.any fun w => decide ((w.heap.object ⟨49, 0⟩).slotValues = [.ref ⟨49, 0⟩]) &&
      w.scheduler.pool.any fun process => process.frames.head?.any fun top =>
        decide ((Instruction.decode top.body.code.bytes top.ip).toOption = some (.pushLiteral .object 0)) &&
        (w.heap.templates.lookup (top.literalSite 0)).isSome &&
        ((w.scheduler.machine process).fault? w.scheduler.context).isNone) = true := by
    decide +kernel
  simp only [Option.any_eq_true, List.any_eq_true, Bool.and_eq_true, decide_eq_true_eq] at hedited
  obtain ⟨w, hw, hslots, process, hprocess, top, htop, ⟨hdecode, htemplate⟩, hfault⟩ := hedited
  obtain ⟨callers, hframes⟩ := List.head?_eq_some_iff.1 htop
  have heval : (w.scheduler.machine process).Evaluates top callers 0 := by
    refine ⟨hframes, ?_⟩
    cases hresult : Instruction.decode top.body.code.bytes top.ip with
    | error fault => simp [hresult, Except.toOption] at hdecode
    | ok i => simpa [hresult, Except.toOption] using hdecode
  have hstart : (w.scheduler.machine process).run w.scheduler.context 0 = w.scheduler.machine process := rfl
  cases hstep : Exec.step w.scheduler.context (w.scheduler.machine process) with
  | error fault k => simp [Machine.fault?, hstep] at hfault
  | ok _ k =>
    obtain ⟨kind, params, code, id, shape, bindings, hliteral, -, hpushed, hnew, hbuilt⟩ :=
      builds_of_evaluates (handled_of_editedCopy hw) hprocess hstart heval hstep
    exact ⟨w, process, k, top, callers, id, handled_of_editedCopy hw, hprocess, heval, htemplate, hslots, hstep,
      hpushed, hnew, kind, params, code, shape, bindings, hliteral, hbuilt⟩

end Session

end ProtoVm
