import ProtoVm.Proofs.Session

/-!
# Every session is sound

What each step of a session keeps, and from it: in every session that can be reached, looking a name up
with the help of earlier searches is the same as searching plainly, and every object that anything refers
to is live.
-/

namespace ProtoVm

namespace Request

open Heap

variable {policy : Policy} {roots : Roots} {heap : Heap} {frames : List Frame}

/-- The heap bears what the request asks of it. -/
structure Fair (policy : Policy) (heap : Heap) (frames : List Frame) (r : Request) : Prop where
  target : ∀ id, r.target? = some id → heap.isLive id = true
  named : ∀ value ∈ r.named, heap.Lasts frames value
  stored : ∀ value ∈ r.stored, heap.Accepts policy frames value
  method : ∀ method, r = .newObjectWith (.method method) →
    policy.code method.body.code ∧ ∃ other, heap.Knows policy.copies other ∧ other.shape.method? = some method
  unit : ∀ body params isBlock, r = .newMethod body params isBlock → policy.code body.code
  copy : ∀ copy, r = .allocate copy → copy ∈ policy.copies ∧ (∀ value ∈ copy.held, heap.Accepts policy frames value) ∧
    (∀ value, copy.scope = some value → heap.Lasts frames value) ∧
    ∀ method, copy.shape.method? = some method → policy.code method.body.code

theorem keeps_ref {x : HeapM ObjectId}
    (h : Keeps policy roots frames x heap fun id heap' => heap'.Lasts frames (.ref id)) :
    Keeps policy roots frames (do return [.ref (← x)]) heap
      fun values heap' => ∀ value ∈ values, heap'.Lasts frames value :=
  h.bind fun _ _ h hid => .pure h.sound (by simpa using hid)

theorem keeps_value {x : HeapM Value}
    (h : Keeps policy roots frames x heap fun value heap' => heap'.Accepts policy frames value) :
    Keeps policy roots frames (do return [← x]) heap
      fun values heap' => ∀ value ∈ values, heap'.Lasts frames value :=
  h.bind fun _ _ h hid => .pure h.sound (by simpa using hid.lasts)

theorem keeps_edit {edit : Heap → Heap} (h : Follows policy roots heap frames (edit heap) frames) :
    Keeps policy roots frames (do modify edit; return []) heap
      fun values heap' => ∀ value ∈ values, heap'.Lasts frames value :=
  (Keeps.modify h trivial).bind (P := fun _ _ => True) fun _ _ h _ => .pure h.sound (by simp)

theorem keeps_install (hs : heap.Sound policy roots frames) (target : ObjectId)
    (natives : List Native) :
    Keeps policy roots frames (Roots.install target natives) heap fun _ _ => True := by
  unfold Roots.install
  induction natives generalizing heap with
  | nil => exact .pure hs trivial
  | cons native natives ih =>
    refine Keeps.bind (P := fun _ _ => True) ?_ fun _ _ h _ => ih h.sound
    have hnative (method : Method) : Behavior.native native ≠ .method method := by simp
    refine (keeps_newObjectWith hs (fun method hm => absurd hm (hnative method)) fun method hm =>
      absurd hm (hnative method)).bind fun object heap' h hobject => ?_
    have hextra : ∀ value ∈ [Value.ref object], heap'.Accepts policy frames value := by
      simpa using hobject
    exact .modify
      (h.sound.restructure target (fun other => other.addSlot_edited _ _) hextra) trivial

theorem keeps_run (hs : heap.Sound policy roots frames) {r : Request}
    (h : r.Fair policy heap frames) :
    Keeps policy roots frames (r.run roots) heap fun values heap' => ∀ value ∈ values, heap'.Lasts frames value := by
  have hnamed := h.named
  have hstored := h.stored
  cases r with
  | newObject => exact keeps_ref ((keeps_newObject hs).mono fun _ _ _ hid => hid.lasts)
  | newObjectWith behavior =>
    refine keeps_ref ((keeps_newObjectWith hs (fun method hm => .inl ?_) fun method hm => ?_).mono
      fun _ _ _ hid => hid.lasts)
    · exact (h.method method (by rw [hm])).2
    · exact (h.method method (by rw [hm])).1
  | newMethod body params isBlock =>
    exact keeps_ref ((keeps_newMethod hs (h.unit body params isBlock rfl) params isBlock).mono fun _ _ _ hid => hid.lasts)
  | allocate copy =>
    obtain ⟨hcopy, hheld, hscope, hcode⟩ := h.copy copy rfl
    exact keeps_ref ((keeps_allocate hs (.shared copy (.inr hcopy) rfl rfl) hheld hscope hcode).mono
      fun _ _ _ hid => hid.1)
  | clone id =>
    have hid : heap.Lasts frames (.ref id) := hnamed _ List.mem_cons_self
    refine keeps_ref ((keeps_copy hs id rfl rfl rfl (fun value h => hs.scope_lasts hid h) fun value h => ?_).mono
      fun _ _ _ hid => hid.1)
    exact hs.held_accepts id (by simp [Object.held, show _ = _ from h])
  | instantiate template scope =>
    refine keeps_ref ((keeps_copy hs template rfl rfl rfl (fun value h => ?_) fun value h => ?_).mono
      fun _ _ _ hid => hid.1)
    · cases h
      exact hnamed _ (by simp [named])
    · exact hs.held_accepts template (by simp [Object.held, show _ = _ from h])
  | cloneWithPayload prototype payload =>
    have hid : heap.Lasts frames (.ref prototype) := hnamed _ List.mem_cons_self
    refine keeps_ref ((keeps_copy hs prototype rfl rfl rfl (fun value h => hs.scope_lasts hid h) fun value h => ?_).mono
      fun _ _ _ hid => hid.1)
    exact hstored value (by simpa [stored] using h)
  | addSlot target name value =>
    exact keeps_edit
      (hs.restructure target (fun object => object.addSlot_edited name value) hstored)
  | insertSlot target position name value =>
    exact keeps_edit
      (hs.restructure target (fun object => object.insertSlot_edited position name value) hstored)
  | eraseSlot target name =>
    refine keeps_edit ?_
    unfold Heap.eraseSlot
    split
    · exact hs.restructure target (fun object => object.eraseSlot_edited name) (by simp)
    · exact hs.follows_self
  | addParent target name value =>
    exact keeps_edit
      (hs.restructure target (fun object => object.addParent_edited name value) hstored)
  | eraseParent target name =>
    refine keeps_edit ?_
    unfold Heap.eraseParent
    split
    · exact hs.restructure target (fun object => object.eraseParent_edited name) (by simp)
    · exact hs.follows_self
  | setSlot target name value =>
    refine keeps_edit ?_
    unfold Heap.setSlot
    split
    · exact hs.assign target _ (hstored value List.mem_cons_self)
    · exact hs.follows_self
  | newString s => exact keeps_value (keeps_newString hs s)
  | newFloat x => exact keeps_value (keeps_newFloat hs x)
  | intern s => exact keeps_value (keeps_intern hs s)
  | install target natives =>
    exact (keeps_install hs target natives).bind fun _ _ h _ => .pure h.sound (by simp)
  | slotLookup start name =>
    refine keeps_edit ?_
    unfold Heap.slotLookup
    split
    · exact hs.follows_self
    · exact hs.consult (h.target start rfl) name
  | parentLookup start name => exact keeps_edit (hs.consult (h.target start rfl) name)

end Request

namespace Heap

variable {policy : Policy} {roots : Roots} {heap : Heap} {frames : List Frame}

theorem Sound.startOf_lasts (hs : heap.Sound policy roots frames) {value : Value}
    (hv : heap.Lasts frames value) : heap.Lasts frames (.ref (roots.startOf value)) := by
  cases value with
  | fixnum n =>
    have htraits : heap.Accepts policy frames (.ref roots.fixnumTraits) :=
      hs.anchor_accepts (by simp [Roots.ids])
    exact htraits.lasts
  | ref id => exact hv

theorem Sound.slot_accepts (hs : heap.Sound policy roots frames) {holder : ObjectId}
    {name : String} {value : Value} (h : (heap.object holder).slot? name = some value) :
    heap.Accepts policy frames value :=
  hs.held_accepts holder (by simp [Object.held, Exec.mem_slotValues_of_slot? h])

/-- Searches from an object that lasts pass only such objects. -/
theorem Sound.walk_lasts (hs : heap.Sound policy roots frames) {start : ObjectId}
    (hstart : heap.Lasts frames (.ref start)) (defines : Object → Option Value) :
    ∀ id ∈ (heap.walk roots start defines).visited, heap.Lasts frames (.ref id) := by
  refine walk_visited (fun id hid next hnext => ?_) hstart
  obtain ⟨value, hvalue, rfl⟩ := List.mem_map.1 hnext
  have hlasts : heap.Lasts frames value := by
    rcases List.mem_append.1 hvalue with hvalue | hvalue
    · exact hs.scope_lasts hid (by simpa using hvalue)
    · exact (hs.held_accepts id (by simp [Object.held, hvalue])).lasts
  exact hs.startOf_lasts hlasts

theorem Sound.nearSlot?_lasts (hs : heap.Sound policy roots frames) {start holder : ObjectId}
    (hstart : heap.Lasts frames (.ref start)) {name : String} {value : Value}
    (h : heap.nearSlot? roots start name = some (holder, value)) :
    heap.Lasts frames (.ref holder) ∧ heap.Accepts policy frames value := by
  unfold nearSlot? at h
  split at h
  · rename_i hslot
    cases h
    exact ⟨hstart, hs.slot_accepts hslot⟩
  · obtain ⟨scope, hscope, h⟩ := Option.bind_eq_some_iff.1 h
    obtain ⟨found, hfound, h⟩ := Option.bind_eq_some_iff.1 h
    cases h
    exact ⟨hs.startOf_lasts (hs.scope_lasts hstart hscope), hs.slot_accepts hfound⟩

theorem Sound.lookup_lasts (hs : heap.Sound policy roots frames) (hr : heap.Remembers roots)
    {start : ObjectId} (hstart : heap.Lasts frames (.ref start)) (name : String) :
    ∀ value ∈ (heap.slotLookup roots start name).result.values, heap.Lasts frames value := by
  have hwalk := hs.walk_lasts hstart (·.slot? name)
  rw [slotLookup_result hs.coherent hr hstart.isLive name]
  unfold plainLookup
  split
  · rename_i holder value hnear
    obtain ⟨hholder, hslot⟩ := hs.nearSlot?_lasts hstart hnear
    intro other hother
    simp only [Lookup.values, List.mem_cons, List.not_mem_nil, or_false] at hother
    rcases hother with rfl | rfl
    · exact hholder
    · exact hslot.lasts
  · intro value hvalue
    cases hresult : (heap.walk roots start (·.slot? name)).result with
    | missing => simp [hresult, Lookup.values] at hvalue
    | found holder found =>
      obtain ⟨hholder, hslot⟩ := walk_found hresult
      rw [hresult] at hvalue
      simp only [Lookup.values, List.mem_cons, List.not_mem_nil, or_false] at hvalue
      rcases hvalue with rfl | rfl
      · exact hwalk holder hholder
      · exact (hs.slot_accepts hslot).lasts
    | ambiguous first second =>
      obtain ⟨hfirst, hsecond⟩ := walk_ambiguous hresult
      rw [hresult] at hvalue
      simp only [Lookup.values, List.mem_cons, List.not_mem_nil, or_false] at hvalue
      rcases hvalue with rfl | rfl
      · exact hwalk first hfirst
      · exact hwalk second hsecond

/-- A frame that has no records yet can be added at any time. -/
theorem Sound.begin (hs : heap.Sound policy roots frames) {frame : Frame}
    (hrecords : frame.records = []) (hactivation : heap.Accepts policy frames frame.activation)
    (hstack : frame.stack = []) (hheld : ∀ value ∈ frame.held, heap.Accepts policy frames value)
    (hcode : policy.code frame.body.code) :
    Follows policy roots heap frames heap (frame :: frames) := by
  have hnone : frame.releasable = [] := by simp [Frame.releasable, hrecords]
  have hc : Carries [] heap frames heap (frame :: frames) := by
    refine .of_kept (fun id object hget => ⟨object, hget, rfl⟩) fun other hother => ?_
    rcases List.mem_cons.1 hother with rfl | hother
    · exact .inr (by simp [hnone])
    · exact .inl ⟨other, hother, rfl⟩
  refine hs.follows .refl hc (by simpa [hrecords] using hs.records_nodup) (fun id object hget => .inl hget)
    (fun other hother => ?_) fun id hid => .inl hid
  rcases List.mem_cons.1 hother with rfl | hother
  · refine .inr ⟨by simp [hrecords], fun id hid => ?_, (hs.effective_accepts hactivation.lasts).carries hc,
      by simp [hstack], fun value hvalue => (hheld value hvalue).carries hc, hcode⟩
    obtain ⟨hlive, hfree⟩ := (hid ▸ hactivation).lasts.carries hc id rfl
    exact ⟨hlive, fun other hother hmem => absurd hmem (hfree other hother)⟩
  · exact .inl ⟨hother, by simp⟩

end Heap

namespace Session

variable {plain : Prop} {w w' : Session}

/-- What is stored must be plain in `plain` mode, and all code may run. -/
def policy (plain : Prop) (w : Session) : Policy where
  strict := plain
  code := fun _ => True
  copies := w.copies
  nested := fun _ _ _ _ _ _ => trivial

structure Sound (plain : Prop) (w : Session) : Prop extends w.scheduler.Sound (w.policy plain) where
  remembers : w.heap.Remembers w.roots
  known : ∀ value ∈ w.known, w.heap.Lasts w.frames value
  copies : ∀ copy ∈ w.copies, (∀ value ∈ copy.held, w.heap.Accepts (w.policy plain) w.frames value) ∧
    ∀ value, copy.scope = some value → w.heap.Lasts w.frames value
  results : ∀ (process : ProcessId) (outcome : Outcome), w.scheduler.outcomes[process]? = some (some outcome) →
    w.heap.Accepts (w.policy plain) w.frames outcome.result
  pooled : ∀ process ∈ w.scheduler.pool, ∀ outcome, process.outcome = some outcome →
    w.heap.Accepts (w.policy plain) w.frames outcome.result

/-- The heap moves on, and what there is besides is old or sound by itself. -/
theorem Sound.follows (hs : w.Sound plain) (hroots : w'.roots = w.roots)
    (hcopies : w'.copies = w.copies)
    (h : Heap.Follows (w.policy plain) w.roots w.heap w.frames w'.heap w'.frames)
    (hknown : ∀ value ∈ w'.known, value ∈ w.known ∨ w'.heap.Lasts w'.frames value)
    (hresults : ∀ (process : ProcessId) (outcome : Outcome), w'.scheduler.outcomes[process]? = some (some outcome) →
      w.scheduler.outcomes[process]? = some (some outcome) ∨
      w'.heap.Accepts (w.policy plain) w'.frames outcome.result)
    (hpool : ∀ process ∈ w'.scheduler.pool, process ∈ w.scheduler.pool ∨
      (∀ outcome, process.outcome = some outcome → w'.heap.Accepts (w.policy plain) w'.frames outcome.result) ∧
      (w'.scheduler.machine process).Tokened) : w'.Sound plain := by
  have hpolicy : w'.policy plain = w.policy plain := by simp [policy, hcopies]
  refine ⟨⟨?_, fun process hp => ?_⟩, ?_, fun value hvalue => ?_, fun copy hcopy => ?_,
    fun process outcome ho => ?_, fun process hp outcome ho => ?_⟩
  · rw [hpolicy, show w'.scheduler.roots = w.roots from hroots]
    exact h.sound
  · rcases hpool process hp with hp | hp
    · exact (hs.tokened process hp).evolves hs.heap.coherent h.evolves rfl (Nat.le_refl _)
    · exact hp.2
  · rw [hroots]
    exact hs.remembers.evolves hs.heap.coherent h.evolves
  · rcases hknown value hvalue with hvalue | hvalue
    · exact h.lasts value (hs.known value hvalue)
    · exact hvalue
  · obtain ⟨hheld, hscope⟩ := hs.copies copy (hcopies ▸ hcopy)
    rw [hpolicy]
    exact ⟨fun value hvalue => h.accepts value (hheld value hvalue),
      fun value hvalue => h.lasts value (hscope value hvalue)⟩
  · rw [hpolicy]
    rcases hresults process outcome ho with ho | ho
    · exact h.accepts _ (hs.results process outcome ho)
    · exact ho
  · rw [hpolicy]
    rcases hpool process hp with hp | hp
    · exact h.accepts _ (hs.pooled process hp outcome ho)
    · exact hp.1 outcome ho

/-- A process goes on while the rest of the pool stays as it is. -/
theorem Sound.resume (hs : w.Sound plain) {process : Process} {rest : List Process}
    (hpool : w.scheduler.pool.Perm (process :: rest)) {m : Machine}
    (h : (w.scheduler.machine process).Follows (w.policy plain) w.roots (rest.flatMap (·.ownFrames)) True m)
    {pool : List Process} (hpool' : pool.Perm (m.process :: rest)) (journal : List Event) :
    Sound plain { w with scheduler := { w.scheduler with
      heap := m.heap
      pool
      outcomes := w.scheduler.outcomes.setIfInBounds m.process.id m.process.outcome
      journal } } := by
  obtain ⟨hfollows, hsound⟩ := hs.toSound.resume hpool h hpool'
    (w.scheduler.outcomes.setIfInBounds m.process.id m.process.outcome) journal
  have hresult (outcome : Outcome) (ho : m.process.outcome = some outcome) :
      m.heap.Accepts (w.policy plain) (pool.flatMap (·.ownFrames)) outcome.result := by
    rcases h.outcome outcome ho with ho | ho
    · exact hfollows.accepts _ (hs.pooled process (hpool.mem_iff.2 List.mem_cons_self) outcome ho)
    · exact (h.sound.forget (hpool'.flatMap_right (·.ownFrames)).subperm).accepts _ ho
  refine hs.follows rfl rfl hfollows (fun _ => .inl) (fun other outcome ho => ?_)
    fun other hother => ?_
  · rw [Array.getElem?_setIfInBounds] at ho
    split at ho
    · split at ho
      · exact .inr (hresult outcome (Option.some.inj ho))
      · cases ho
    · exact .inl ho
  · rcases List.mem_cons.1 (hpool'.mem_iff.1 hother) with rfl | hold
    · exact .inr ⟨hresult, hsound.tokened _ hother⟩
    · exact .inl (hpool.mem_iff.2 (.tail _ hold))

/-! ## The steps of a session -/

theorem Sound.fair (hs : w.Sound plain) {r : Request} (h : w.Allows plain r) :
    r.Fair (w.policy plain) w.heap w.frames := by
  refine ⟨h.target, fun value hvalue => hs.known value (h.named value hvalue), fun value hvalue => ?_,
    fun method hr => ?_, fun _ _ _ _ => trivial, fun copy hr => ?_⟩
  · exact ⟨hs.known value (h.stored value hvalue), fun hplain => h.storesPlain hplain value hvalue⟩
  · refine ⟨trivial, ?_⟩
    rcases h.method method hr with ⟨id, hid, hmethod⟩ | ⟨copy, hcopy, hmethod⟩
    · exact ⟨_, .of_get? (Heap.get?_object (hs.known _ hid).isLive), hmethod⟩
    · exact ⟨copy, .inr hcopy, hmethod⟩
  · have hcopy := h.copy copy hr
    exact ⟨hcopy, (hs.copies copy hcopy).1, (hs.copies copy hcopy).2, fun _ _ => trivial⟩

theorem Sound.perform (hs : w.Sound plain) {r : Request} (h : w.Allows plain r) :
    (w.perform r).Sound plain := by
  have hrun := Request.keeps_run hs.heap (hs.fair h)
  unfold Session.perform
  split
  · rename_i values heap hok
    obtain ⟨hfollows, hvalues⟩ := hrun.of_ok hok
    refine hs.follows rfl rfl hfollows (fun value hvalue => ?_) (fun _ _ => .inl) fun _ => .inl
    exact (List.mem_append.1 hvalue).symm.imp_right (hvalues value)
  · rename_i fault heap herror
    exact hs.follows rfl rfl (hrun.of_error herror) (fun _ => .inl) (fun _ _ => .inl) fun _ => .inl

theorem Readable.lasts {value : Value} (h : w.Readable value) (hs : w.Sound plain) :
    w.heap.Lasts w.frames value := by
  cases h with
  | fixnum n => exact fun id hid => (nomatch hid)
  | root hid => exact (hs.heap.anchor_accepts hid).lasts
  | content hid hvalue => exact (hs.heap.held_accepts _ hvalue).lasts
  | scope hid hscope => exact hs.heap.scope_lasts (hs.known _ hid) hscope
  | copied hcopy hvalue =>
    rcases hvalue with hvalue | hvalue
    · exact ((hs.copies _ hcopy).1 value hvalue).lasts
    · exact (hs.copies _ hcopy).2 value hvalue
  | interned hid =>
    refine (hs.heap.anchors _ (List.mem_append_right _ (List.mem_append_left _ ?_))).lasts
    exact List.mem_map.2 ⟨_, hid, rfl⟩
  | result ho => exact (hs.results _ _ ho).lasts
  | found hid hvalue => exact hs.heap.lookup_lasts hs.remembers (hs.known _ hid) _ value hvalue
  | passed hid htarget => exact hs.heap.walk_lasts (hs.known _ hid) _ _ htarget

theorem Sound.copy (hs : w.Sound plain) {id : ObjectId} (h : .ref id ∈ w.known) :
    Sound plain { w with copies := w.heap.object id :: w.copies } := by
  have hid := hs.known _ h
  have hcoherent := hs.heap.coherent.copy (Heap.get?_object hid.isLive)
  refine ⟨⟨hs.heap.under (fun h => h) hcoherent (fun _ _ _ _ _ => trivial) fun _ _ => trivial, hs.tokened⟩,
    hs.remembers, hs.known, fun copy hcopy => ?_,
    fun process outcome ho => (hs.results process outcome ho).under fun h => h,
    fun process hp outcome ho => (hs.pooled process hp outcome ho).under fun h => h⟩
  rcases List.mem_cons.1 hcopy with rfl | hcopy
  · exact ⟨fun value hvalue => (hs.heap.held_accepts id hvalue).under fun h => h,
      fun value hvalue => hs.heap.scope_lasts hid hvalue⟩
  · obtain ⟨hheld, hscope⟩ := hs.copies copy hcopy
    exact ⟨fun value hvalue => (hheld value hvalue).under fun h => h, hscope⟩

theorem Sound.load (hs : w.Sound plain) (code : Code) :
    Sound plain
      { w with scheduler := (w.scheduler.load code).2, units := (w.scheduler.load code).1 :: w.units } := by
  have hrecord : Heap.Follows (w.policy plain) w.roots w.heap w.frames
      { w.heap with nextUnit := w.heap.nextUnit + 1 } w.frames :=
    hs.heap.record (fun _ => .inl) fun _ => .inl
  exact hs.follows rfl rfl hrecord (fun _ => .inl) (fun _ _ => .inl) fun _ => .inl

theorem Sound.add (hs : w.Sound plain) (body : Body) :
    Sound plain { w with scheduler := (w.scheduler.addProcess body).2 } := by
  have hlobby : w.heap.Accepts (w.policy plain) w.frames (.ref w.roots.lobby) :=
    hs.heap.anchor_accepts (by simp [Roots.ids])
  set process := Process.start w.scheduler.outcomes.size { body with code := body.code.finalize }
    (.ref w.roots.lobby) with hprocess
  have hbegin : Heap.Follows (w.policy plain) w.roots w.heap w.frames w.heap (process.ownFrames ++ w.frames) :=
    hs.heap.begin rfl hlobby rfl (by simpa [Frame.held, FrameKind.error?] using hlobby) trivial
  have hpool : (w.scheduler.pool ++ [process]).Perm (process :: w.scheduler.pool) :=
    List.perm_append_singleton _ _
  have hlast := hbegin.sound.forget (hpool.flatMap_right (·.ownFrames)).subperm
  refine hs.follows rfl rfl (hbegin.trans hlast) (fun _ => .inl) (fun other outcome ho => .inl ?_)
    fun other hother => ?_
  · simp only [Scheduler.addProcess, Array.getElem?_push] at ho
    split at ho
    · cases ho
    · exact ho
  · rcases List.mem_cons.1 (hpool.mem_iff.1 hother) with rfl | hother
    · exact .inr
        ⟨fun outcome ho => (by cases ho), fun index hindex => absurd hindex (Nat.not_lt_zero _)⟩
    · exact .inl hother

theorem Sound.remove (hs : w.Sound plain) (id : ProcessId) :
    Sound plain { w with scheduler := (w.scheduler.removeProcess id).2 } := by
  unfold Scheduler.removeProcess
  split
  · have hsublist := List.eraseP_sublist (p := (·.id == id)) (l := w.scheduler.pool)
    refine hs.follows rfl rfl (hs.heap.forget (hsublist.flatMap _).subperm) (fun _ => .inl)
      (fun _ _ => .inl) ?_
    exact fun process hp => .inl (hsublist.subset hp)
  · exact hs

theorem Sound.run (hs : w.Sound plain) (limit : Nat) :
    Sound plain { w with scheduler := (w.scheduler.runOnce limit).2 } := by
  unfold Scheduler.runOnce
  split
  · exact hs
  · rename_i process pool hpool
    have hperm : w.scheduler.pool.Perm (process :: pool) := .of_eq hpool
    split
    · have hsublist : pool.Sublist w.scheduler.pool := hpool ▸ List.sublist_cons_self process pool
      refine hs.follows rfl rfl (hs.heap.forget (hsublist.flatMap _).subperm) (fun _ => .inl)
        (fun _ _ => .inl) ?_
      exact fun process hp => .inl (hsublist.subset hp)
    · have hrun : (w.scheduler.machine process).Follows (w.policy plain) w.scheduler.context.roots (pool.flatMap (·.ownFrames)) True
          ((w.scheduler.machine process).run w.scheduler.context (w.scheduler.budget limit)) :=
        Machine.follows_run _ (hs.machine hperm)
      exact hs.resume hperm hrun (List.perm_append_singleton _ _) _

theorem Sound.tick (hs : w.Sound plain) (index : Nat) :
    Sound plain { w with scheduler := w.scheduler.tick index } := by
  unfold Scheduler.tick
  split
  · rename_i process hprocess
    split
    · exact hs
    · obtain ⟨hindex, rfl⟩ := List.getElem?_eq_some_iff.1 hprocess
      have hperm := (List.getElem_cons_eraseIdx_perm hindex).symm
      have hadvance : (w.scheduler.machine w.scheduler.pool[index]).Follows (w.policy plain) w.scheduler.context.roots
          ((w.scheduler.pool.eraseIdx index).flatMap (·.ownFrames)) True
          ((w.scheduler.machine w.scheduler.pool[index]).advance w.scheduler.context) :=
        Machine.follows_advance (hs.machine hperm)
      exact hs.resume hperm hadvance (List.set_perm_cons_eraseIdx hindex _) _
  · exact hs

theorem Step.sound (h : w.Step plain w') (hs : w.Sound plain) : w'.Sound plain := by
  cases h with
  | request r h => exact hs.perform h
  | learn h =>
    refine hs.follows rfl rfl hs.heap.follows_self (fun value hvalue => ?_) (fun _ _ => .inl)
      fun _ => .inl
    rcases List.mem_cons.1 hvalue with rfl | hvalue
    · exact .inr (h.lasts hs)
    · exact .inl hvalue
  | copy h => exact hs.copy h
  | load code => exact hs.load code
  | add h => exact hs.add _
  | remove id => exact hs.remove id
  | run limit => exact hs.run limit
  | tick index => exact hs.tick index
  | note event =>
    exact hs.follows rfl rfl hs.heap.follows_self (fun _ => .inl) (fun _ _ => .inl) fun _ => .inl

theorem sound_start {config : Config} {maxObjects : Nat} {s : Scheduler}
    (h : Scheduler.create config maxObjects = .ok s) : Sound plain { scheduler := s } := by
  unfold Scheduler.create at h
  split at h
  · rename_i roots heap hroots
    cases h
    have hcreate : heap.Sound (policy plain { scheduler := { roots, config, heap } }) roots [] ∧
        heap.Remembers roots := Heap.sound_of_create rfl hroots
    refine ⟨⟨hcreate.1, ?_⟩, hcreate.2, ?_, ?_, ?_, ?_⟩ <;> simp
  · cases h

theorem Reachable.sound (h : Reachable plain w) : w.Sound plain := by
  induction h with
  | start h => exact sound_start h
  | step _ h ih => exact h.sound ih

/-- What earlier searches left behind never shows in the result of a lookup. -/
theorem slotLookup_eq_plainLookup (hw : w.Reachable plain) {id : ObjectId}
    (hid : w.heap.isLive id = true) (name : String) :
    (w.heap.slotLookup w.roots id name).result = w.heap.plainLookup w.roots id name :=
  Heap.slotLookup_result hw.sound.heap.coherent hw.sound.remembers hid name

theorem slotLookup_eq_plainLookup_trial :
    ∃ (w : Session) (id : ObjectId), w.Reachable False ∧
      w.heap.isLive id = true ∧ (w.heap.slotLookup w.roots id "primitives").use = some (.hit w.roots.lobby) ∧
      (w.heap.slotLookup w.roots id "primitives").result = w.heap.plainLookup w.roots id "primitives" := by
  have htrial : ((trial .resume 24).any fun w => w.activations.any fun id => w.heap.isLive id &&
      decide ((w.heap.slotLookup w.roots id "primitives").use = some (.hit w.roots.lobby))) = true := by
    decide +kernel
  obtain ⟨w, hw, hcheck⟩ := (Option.any_eq_true _ _).1 htrial
  obtain ⟨id, -, hid⟩ := List.any_eq_true.1 hcheck
  rw [Bool.and_eq_true, decide_eq_true_eq] at hid
  have hreachable : w.Reachable False := reachable_of_trial hw
  exact ⟨w, id, hreachable, hid.1, hid.2, slotLookup_eq_plainLookup hreachable hid.1 _⟩

end Session

/-! ## What the machine can come to -/

/-- The values in the hands of the machine: those in frames, in objects and in its tables, the results of
processes, and the objects that searches pass. -/
inductive Scheduler.Refers (s : Scheduler) : Value → Prop
  | operand {process : Process} {frame : Frame} {value : Value} (hprocess : process ∈ s.pool)
      (hframe : frame ∈ process.allFrames) (h : value ∈ frame.stack) : Refers s value
  | activation {process : Process} {frame : Frame} (hprocess : process ∈ s.pool)
      (hframe : frame ∈ process.allFrames) : Refers s frame.activation
  | receiver {process : Process} {frame : Frame} (hprocess : process ∈ s.pool)
      (hframe : frame ∈ process.allFrames) : Refers s frame.receiver
  | handler {process : Process} {frame : Frame} {block : Value} (hprocess : process ∈ s.pool)
      (hframe : frame ∈ process.allFrames) (h : frame.handler = some block) : Refers s block
  | error {process : Process} {frame : Frame} {error : Value} (hprocess : process ∈ s.pool)
      (hframe : frame ∈ process.allFrames) (h : frame.kind = .handler error) : Refers s error
  | record {process : Process} {frame : Frame} {id : ObjectId} (hprocess : process ∈ s.pool)
      (hframe : frame ∈ process.allFrames) (h : id ∈ frame.records) : Refers s (.ref id)
  | slot {id : ObjectId} {object : Object} {value : Value} (hget : s.heap.get? id = some object)
      (h : value ∈ object.slotValues) : Refers s value
  | parent {id : ObjectId} {object : Object} {value : Value} (hget : s.heap.get? id = some object)
      (h : value ∈ object.parentValues) : Refers s value
  | scope {id : ObjectId} {object : Object} {value : Value} (hget : s.heap.get? id = some object)
      (h : object.scope = some value) : Refers s value
  | called {id : ObjectId} {object : Object} {receiver : Value} (hget : s.heap.get? id = some object)
      (h : object.payload = .activation receiver) : Refers s receiver
  | root {id : ObjectId} (h : id ∈ s.roots.ids) : Refers s (.ref id)
  | interned {text : String} {id : ObjectId} (h : (text, id) ∈ s.heap.strings) : Refers s (.ref id)
  | template {site : Site} {id : ObjectId} (h : (site, id) ∈ s.heap.templates) : Refers s (.ref id)
  | result {process : ProcessId} {outcome : Outcome} (h : s.outcomes[process]? = some (some outcome)) :
      Refers s outcome.result
  | ending {process : Process} {outcome : Outcome} (hprocess : process ∈ s.pool)
      (h : process.outcome = some outcome) : Refers s outcome.result
  | passed {start id : ObjectId} {defines : Object → Option Value} (hstart : Refers s (.ref start))
      (h : id ∈ (s.heap.walk s.roots start defines).visited) : Refers s (.ref id)

/-- Searches from a live object pass only live ones. -/
theorem Heap.Sound.walk_isLive {policy : Policy} {roots : Roots} {heap : Heap} {frames : List Frame}
    (hs : heap.Sound policy roots frames) {start : ObjectId} (hstart : heap.isLive start = true)
    (defines : Object → Option Value) :
    ∀ id ∈ (heap.walk roots start defines).visited, heap.isLive id = true := by
  have htraits : heap.Accepts policy frames (.ref roots.fixnumTraits) :=
    hs.anchor_accepts (by simp [Roots.ids])
  refine walk_visited (fun id hid next hnext => ?_) hstart
  obtain ⟨value, hvalue, rfl⟩ := List.mem_map.1 hnext
  cases value with
  | fixnum n => exact htraits.isLive
  | ref target =>
    rcases List.mem_append.1 hvalue with hvalue | hvalue
    · exact ((hs.objects id _ (get?_object hid)).scope target (by simpa using hvalue)).1
    · have haccepts : heap.Accepts policy frames (.ref target) :=
        hs.held_accepts id (by simp [Object.held, hvalue])
      exact haccepts.isLive

namespace Session

variable {plain : Prop} {w : Session}

theorem Sound.frame (hs : w.Sound plain) {process : Process} {frame : Frame}
    (hprocess : process ∈ w.scheduler.pool) (hframe : frame ∈ process.allFrames) :
    frame.Sound (w.policy plain) w.heap w.frames :=
  hs.heap.activations frame (List.mem_flatMap.2 ⟨process, hprocess, process.allFrames_perm.mem_iff.1 hframe⟩)

/-- Whatever the machine refers to has not been given back. -/
theorem isLive_of_refers (hw : w.Reachable plain) {id : ObjectId}
    (h : w.scheduler.Refers (.ref id)) : w.heap.isLive id = true := by
  have hs := hw.sound
  generalize hvalue : Value.ref id = value at h
  induction h generalizing id with
  | operand hprocess hframe hmem =>
    subst hvalue
    have hsound := hs.frame hprocess hframe
    rcases hsound.stack _ hmem with heq | haccepts
    · exact (hsound.activation id heq.symm).1
    · exact haccepts.isLive
  | activation hprocess hframe => exact ((hs.frame hprocess hframe).activation id hvalue.symm).1
  | receiver hprocess hframe =>
    have haccepts := (hs.frame hprocess hframe).held _ List.mem_cons_self
    exact (hvalue ▸ haccepts).isLive
  | handler hprocess hframe hblock =>
    subst hvalue
    exact ((hs.frame hprocess hframe).held _ (by simp [Frame.held, hblock])).isLive
  | error hprocess hframe hkind =>
    subst hvalue
    exact ((hs.frame hprocess hframe).held _ (by simp [Frame.held, hkind, FrameKind.error?])).isLive
  | record hprocess hframe hmem =>
    cases hvalue
    obtain ⟨object, hget, -⟩ := (hs.frame hprocess hframe).records _ hmem
    exact Heap.isLive_iff.2 ⟨object, hget⟩
  | slot hget hmem =>
    subst hvalue
    exact ((hs.heap.objects _ _ hget).held _ (by simp [Object.held, hmem])).isLive
  | parent hget hmem =>
    subst hvalue
    exact ((hs.heap.objects _ _ hget).held _ (by simp [Object.held, hmem])).isLive
  | scope hget hscope =>
    subst hvalue
    exact ((hs.heap.objects _ _ hget).scope id hscope).1
  | called hget hpayload =>
    subst hvalue
    exact ((hs.heap.objects _ _ hget).held _ (by simp [Object.held, hpayload, Payload.receiver?])).isLive
  | root hroot =>
    cases hvalue
    exact (hs.heap.anchor_accepts hroot).isLive
  | interned hmem =>
    cases hvalue
    refine (hs.heap.anchors _ (List.mem_append_right _ (List.mem_append_left _ ?_))).isLive
    exact List.mem_map.2 ⟨_, hmem, rfl⟩
  | template hmem =>
    cases hvalue
    refine (hs.heap.anchors _ (List.mem_append_right _ (List.mem_append_right _ ?_))).isLive
    exact List.mem_map.2 ⟨_, hmem, rfl⟩
  | result houtcome => exact (hvalue ▸ hs.results _ _ houtcome).isLive
  | ending hprocess houtcome => exact (hvalue ▸ hs.pooled _ hprocess _ houtcome).isLive
  | passed hstart hmem ih =>
    cases hvalue
    exact hs.heap.walk_isLive (ih rfl) _ _ hmem

/-- A handler runs, and the stack it may resume is parked. -/
theorem isLive_of_refers_trial :
    ∃ (w : Session) (process : Process) (frame : Frame) (id : ObjectId),
      w.Reachable False ∧ process ∈ w.scheduler.pool ∧ frame ∈ process.frames ∧ process.parked ≠ [] ∧
      id ∈ frame.records ∧ w.heap.isLive id = true := by
  have htrial : ((trial .resume 24).any fun w => w.scheduler.pool.any fun process => !process.parked.isEmpty &&
      process.frames.any fun frame => !frame.records.isEmpty) = true := by
    decide +kernel
  obtain ⟨w, hw, hcheck⟩ := (Option.any_eq_true _ _).1 htrial
  obtain ⟨process, hprocess, hcheck⟩ := List.any_eq_true.1 hcheck
  simp only [Bool.and_eq_true, Bool.not_eq_true', List.isEmpty_eq_false_iff,
    List.any_eq_true] at hcheck
  obtain ⟨hparked, frame, hframe, hrecords⟩ := hcheck
  obtain ⟨id, hid⟩ := List.exists_mem_of_ne_nil _ hrecords
  have hreachable : w.Reachable False := reachable_of_trial hw
  refine ⟨w, process, frame, id, hreachable, hprocess, hframe, hparked, hid,
    isLive_of_refers hreachable ?_⟩
  exact .record hprocess (by simp [Process.allFrames, hframe]) hid

end Session

end ProtoVm
