import ProtoVm.Proofs.CachedSearch
import ProtoVm.Proofs.HeapRuns

/-!
# Checkpoints

A checkpoint is an object and the version it had. Versions are drawn in order and drawn anew for every structural
edit, so a checkpoint that is valid at a later moment vouches for all of the object but the values of its slots,
however many copies of it were made and given back in between.
-/

namespace ProtoVm

namespace Object

variable {object object' object'' : Object}

theorem Alike.trans (h : object.Alike object') (h' : object'.Alike object'') : object.Alike object'' :=
  ⟨h'.shape_eq.trans h.shape_eq, h'.length_eq.trans h.length_eq, h'.parents_eq.trans h.parents_eq,
    h'.scope_eq.trans h.scope_eq, h'.payload_eq.trans h.payload_eq⟩

theorem Alike.eq_with_slotValues (h : object.Alike object') :
    object' = { object with slotValues := object'.slotValues } := by
  rcases object' with ⟨shape, slotValues, parentValues, scope, payload⟩
  obtain ⟨rfl, -, rfl, rfl, rfl⟩ := h
  rfl

end Object

namespace Heap

variable {l : Mandate} {edits edits' : ObjectId → Prop} {copies copies' : List Object} {heap heap' heap'' : Heap}
  {id : ObjectId}

/-! ## Heaps grow older -/

/-- An object that is still there has kept its structure, or it was edited and has a version that was not drawn yet. -/
structure Ages (edits : ObjectId → Prop) (heap heap' : Heap) : Prop where
  issued : ∀ id, heap.Issued id → heap'.Issued id
  version_le : heap.version ≤ heap'.version
  alike : ∀ id object', heap.Issued id → heap'.get? id = some object' →
    ∃ object, heap.get? id = some object ∧ (object.Alike object' ∨ edits id ∧ heap.version < object'.shape.version)

theorem Ages.refl (heap : Heap) : Ages edits heap heap :=
  ⟨fun _ => id, Nat.le_refl _, fun _ object' _ hget => ⟨object', hget, .inl (.refl object')⟩⟩

theorem Ages.trans (h : Ages edits heap heap') (h' : Ages edits heap' heap'') : Ages edits heap heap'' := by
  refine ⟨fun id hid => h'.issued id (h.issued id hid), h.version_le.trans h'.version_le, fun id last hid hlast => ?_⟩
  obtain ⟨middle, hmiddle, hnew⟩ := h'.alike id last (h.issued id hid) hlast
  obtain ⟨first, hfirst, hold⟩ := h.alike id middle hid hmiddle
  refine ⟨first, hfirst, ?_⟩
  rcases hnew with hnew | ⟨hedits, hlt⟩
  · rcases hold with hold | ⟨hedits, hlt⟩
    · exact .inl (hold.trans hnew)
    · exact .inr ⟨hedits, hnew.shape_eq ▸ hlt⟩
  · exact .inr ⟨hedits, Nat.lt_of_le_of_lt h.version_le hlt⟩

theorem Ages.mono (h : Ages edits heap heap') (hedits : ∀ id, edits id → edits' id) : Ages edits' heap heap' := by
  refine ⟨h.issued, h.version_le, fun id object' hid hget => ?_⟩
  obtain ⟨object, hobject, halike⟩ := h.alike id object' hid hget
  exact ⟨object, hobject, halike.imp_right (And.imp_left (hedits id))⟩

theorem Touch.deed (h : Touch l heap heap') : Deed (fun _ => True) l.copies heap heap' := by
  cases h with
  | make h hok => exact .act (.make h hok)
  | release id => exact .release id
  | assign h index value => exact .act (.assign _ index value)
  | edit h edit => exact .act (.edit _ edit)
  | aside hcells hfree hlimit hversion hunit => exact .act (.aside hcells hfree hlimit hunit)

theorem get?_of_release {other : ObjectId} {object : Object} (h : (heap.release id).get? other = some object) :
    heap.get? other = some object := by
  rw [get?_release] at h
  split at h
  · cases h
  · exact h

theorem get?_of_assign {index : Nat} {value : Value} {other : ObjectId} {object' : Object}
    (h : (heap.update id (·.setSlot index value)).get? other = some object') :
    ∃ object, heap.get? other = some object ∧ object.Alike object' := by
  rw [get?_update] at h
  split at h
  · rename_i heq
    subst heq
    obtain ⟨object, hobject, rfl⟩ := Option.map_eq_some_iff.1 h
    exact ⟨object, hobject, object.setSlot_alike index value⟩
  · exact ⟨object', h, .refl object'⟩

theorem Touch.ages (h : Touch l heap heap') (tidy : heap.Tidy) : Ages l.edits heap heap' := by
  have hissued (id : ObjectId) (hid : heap.Issued id) : heap'.Issued id := h.deed.issued tidy hid
  cases h with
  | make h hok =>
    have hadds := allocate_adds tidy hok
    refine ⟨hissued, hadds.version_eq.ge, fun other object' hother hget => ⟨object', ?_, .inl (.refl object')⟩⟩
    rwa [← hadds.get?_of_ne other]
    rintro rfl
    exact hadds.unissued hother
  | release id =>
    refine ⟨hissued, by simp, fun other object' _ hget => ?_⟩
    exact ⟨object', get?_of_release hget, .inl (.refl object')⟩
  | assign h index value =>
    refine ⟨hissued, by simp, fun other object' _ hget => ?_⟩
    obtain ⟨object, hobject, halike⟩ := get?_of_assign hget
    exact ⟨object, hobject, .inl halike⟩
  | edit h edit =>
    refine ⟨hissued, Nat.le_succ _, fun other object' _ hget => ?_⟩
    rw [get?_restructure] at hget
    split at hget
    · rename_i heq
      subst heq
      obtain ⟨object, hobject, rfl⟩ := Option.map_eq_some_iff.1 hget
      exact ⟨object, hobject, .inr ⟨h, Nat.lt_succ_self heap.version⟩⟩
    · exact ⟨object', hget, .inl (.refl object')⟩
  | aside hcells hfree hlimit hversion hunit =>
    refine ⟨hissued, hversion.ge, fun other object' _ hget => ⟨object', ?_, .inl (.refl object')⟩⟩
    rwa [get?_of_cells hcells] at hget

theorem Touches.tidy (h : Touches l heap heap') (tidy : heap.Tidy) : heap'.Tidy := by
  induction h with
  | refl => exact tidy
  | tail _ h ih => exact h.deed.tidy ih

theorem Touches.ages (h : Touches l heap heap') (tidy : heap.Tidy) : Ages l.edits heap heap' := by
  induction h with
  | refl => exact .refl heap
  | tail hrest h ih => exact ih.trans (h.ages (Touches.tidy hrest tidy))

theorem Ages.versionOf_eq (h : Ages edits heap heap') (hid : ¬edits id) (hlive : heap.isLive id = true)
    (hlive' : heap'.isLive id = true) : heap'.versionOf id = heap.versionOf id := by
  obtain ⟨object, hobject, halike | ⟨hedits, -⟩⟩ :=
    h.alike id _ (.of_get? (get?_object hlive)) (get?_object hlive')
  · rw [versionOf, versionOf, halike.shape_eq, object_of_get? hobject]
  · exact absurd hedits hid

/-! ## One version, one shape -/

/-- No version lies ahead of the heap's, and of a version other than zero there is one shape. -/
structure Stamped (copies : List Object) (heap : Heap) : Prop where
  tidy : heap.Tidy
  version_le : ∀ object, heap.Knows copies object → object.shape.version ≤ heap.version
  shape_eq : ∀ object object', heap.Knows copies object → heap.Knows copies object' → object.shape.version ≠ 0 →
    object'.shape.version = object.shape.version → object'.shape = object.shape

theorem stamped_empty (limit : Nat) : (Heap.empty limit).Stamped [] := by
  have hc := coherent_empty limit
  have hknows (object : Object) : ¬(Heap.empty limit).Knows [] object := by
    rintro (⟨id, h⟩ | h)
    · simp [Heap.empty, get?] at h
    · cases h
  exact ⟨hc.tidy, hc.version_le, fun object _ h => absurd h (hknows object)⟩

/-- Shapes that were known before, or have no version, bring no conflict. -/
theorem Stamped.of_shapes (hs : heap.Stamped copies) (tidy : heap'.Tidy) (hversion : heap.version ≤ heap'.version)
    (h : ∀ object', heap'.Knows copies' object' → object'.shape.version = 0 ∨
      ∃ object, heap.Knows copies object ∧ object'.shape = object.shape) : heap'.Stamped copies' := by
  refine ⟨tidy, fun object' hobject' => ?_, fun first second hfirst hsecond hne heq => ?_⟩
  · rcases h object' hobject' with hzero | ⟨object, hobject, hshape⟩
    · exact hzero ▸ Nat.zero_le _
    · exact hshape ▸ (hs.version_le object hobject).trans hversion
  · rcases h first hfirst with hzero | ⟨a, ha, hshape⟩
    · exact absurd hzero hne
    · rcases h second hsecond with hzero | ⟨b, hb, hshape'⟩
      · exact absurd (heq.symm.trans hzero) hne
      · rw [hshape] at hne heq ⊢
        rw [hshape'] at heq ⊢
        exact hs.shape_eq a b ha hb hne heq

theorem Stamped.of_get? (hs : heap.Stamped copies) (tidy : heap'.Tidy) (hversion : heap.version ≤ heap'.version)
    (h : ∀ id object', heap'.get? id = some object' → ∃ object, heap.get? id = some object ∧ object.Alike object') :
    heap'.Stamped copies := by
  refine hs.of_shapes tidy hversion fun found hfound => .inr ?_
  rcases hfound with ⟨id, hget⟩ | hcopy
  · obtain ⟨object, hobject, halike⟩ := h id found hget
    exact ⟨object, .of_get? hobject, halike.shape_eq⟩
  · exact ⟨found, .inr hcopy, rfl⟩

theorem Makes.shape_of {bodies : Body → Prop} {object : Object} (h : heap.Makes bodies copies object) :
    object.shape.version = 0 ∨ ∃ model, heap.Knows copies model ∧ object.shape = model.shape := by
  cases h with
  | plain | own | binding => exact .inl rfl
  | copy id scope payload =>
    cases hlive : heap.isLive id with
    | true => exact .inr ⟨_, .of_get? (get?_object hlive), rfl⟩
    | false => exact .inl (by rw [object_of_not_isLive hlive])
  | held h => exact .inr ⟨object, .inr h, rfl⟩

theorem Knows.of_adds {object found : Object} (hadds : heap.Adds object id heap') (h : heap'.Knows copies found) :
    found = object ∨ heap.Knows copies found := by
  rcases h with ⟨other, hget⟩ | hcopy
  · by_cases heq : other = id
    · rw [heq, hadds.get?_self] at hget
      exact .inl (Option.some.inj hget).symm
    · exact .inr (.of_get? (hadds.get?_of_ne other heq ▸ hget))
  · exact .inr (.inr hcopy)

/-- Among the objects known after an edit the edited one alone has the version of the edit. -/
theorem Stamped.restructure (hs : heap.Stamped copies) (id : ObjectId) (edit : Edit) :
    (heap.restructure id edit.apply).Stamped copies := by
  have hknows {found : Object} (h : (heap.restructure id edit.apply).Knows copies found) :
      found = (edit.apply (heap.object id)).stamp heap.nextShape (heap.version + 1) ∨
        heap.Knows copies found := by
    rcases h with ⟨other, hget⟩ | hcopy
    · rw [get?_restructure] at hget
      split at hget
      · obtain ⟨object, hobject, rfl⟩ := Option.map_eq_some_iff.1 hget
        exact .inl (by rw [object_of_get? hobject])
      · exact .inr (.of_get? hget)
    · exact .inr (.inr hcopy)
  have hold {found : Object} (h : heap.Knows copies found) : found.shape.version ≠ heap.version + 1 :=
    Nat.ne_of_lt (Nat.lt_succ_of_le (hs.version_le found h))
  refine ⟨hs.tidy.restructure id edit.apply, fun found hfound => ?_, fun first second hfirst hsecond hne heq => ?_⟩
  · rcases hknows hfound with rfl | hfound
    · exact Nat.le_refl _
    · exact Nat.le_succ_of_le (hs.version_le found hfound)
  · rcases hknows hfirst with rfl | hfirst <;> rcases hknows hsecond with rfl | hsecond
    · rfl
    · exact absurd heq (hold hsecond)
    · exact absurd heq.symm (hold hfirst)
    · exact hs.shape_eq first second hfirst hsecond hne heq

theorem Touch.stamped (h : Touch l heap heap') (hs : heap.Stamped l.copies) : heap'.Stamped l.copies := by
  have tidy' : heap'.Tidy := h.deed.tidy hs.tidy
  have hages := h.ages hs.tidy
  cases h with
  | make h hok =>
    refine hs.of_shapes tidy' hages.version_le fun found hfound => ?_
    rcases hfound.of_adds (allocate_adds hs.tidy hok) with rfl | hfound
    · exact h.shape_of
    · exact .inr ⟨found, hfound, rfl⟩
  | edit h edit => exact hs.restructure _ edit
  | release id =>
    exact hs.of_get? tidy' hages.version_le fun _ found hget => ⟨found, get?_of_release hget, .refl found⟩
  | assign h index value => exact hs.of_get? tidy' hages.version_le fun _ _ => get?_of_assign
  | aside hcells hfree hlimit hversion hunit =>
    refine hs.of_get? tidy' hages.version_le fun other found hget => ⟨found, ?_, .refl found⟩
    rwa [get?_of_cells hcells] at hget

theorem Touches.stamped (h : Touches l heap heap') (hs : heap.Stamped l.copies) : heap'.Stamped l.copies := by
  induction h with
  | refl => exact hs
  | tail _ h ih => exact h.stamped ih

theorem Stamped.copy (hs : heap.Stamped copies) (id : ObjectId) : heap.Stamped (heap.object id :: copies) := by
  refine hs.of_shapes hs.tidy (Nat.le_refl _) fun found hfound => ?_
  have hmade : heap.Makes (fun _ => True) copies (heap.object id) :=
    .copy id (heap.object id).scope (heap.object id).payload
  rcases hfound with ⟨other, hget⟩ | hcopy
  · exact .inr ⟨found, .of_get? hget, rfl⟩
  · rcases List.mem_cons.1 hcopy with rfl | hcopy
    · exact hmade.shape_of
    · exact .inr ⟨found, .inr hcopy, rfl⟩

theorem Stamped.versionOf_le (hs : heap.Stamped copies) (hlive : heap.isLive id = true) :
    heap.versionOf id ≤ heap.version :=
  hs.version_le _ (.of_get? (get?_object hlive))

/-- The version of an edit is later than all versions before it, and versions do not go back. -/
theorem Revises.versionOf_lt (h : Revises l id heap heap') (hs : heap.Stamped l.copies) (hlive : heap.isLive id = true)
    (hlive' : heap'.isLive id = true) : heap.versionOf id < heap'.versionOf id := by
  obtain ⟨before, edit, hbefore, hafter⟩ := h
  have hages := hbefore.ages hs.tidy
  have hages' := hafter.ages ((Touches.tidy hbefore hs.tidy).restructure id edit.apply)
  have hissued : (before.restructure id edit.apply).Issued id :=
    (hages.issued id (.of_get? (get?_object hlive))).restructure id edit.apply
  obtain ⟨edited, hedited, hlater⟩ := hages'.alike id _ hissued (get?_object hlive')
  rw [get?_restructure, if_pos rfl] at hedited
  obtain ⟨object, -, rfl⟩ := Option.map_eq_some_iff.1 hedited
  -- the object carries the edit's version or one that was drawn after it
  have hold : heap.versionOf id < before.version + 1 :=
    Nat.lt_succ_of_le ((hs.versionOf_le hlive).trans hages.version_le)
  rcases hlater with halike | ⟨-, hlt⟩
  · rwa [versionOf, versionOf, halike.shape_eq]
  · exact hold.trans hlt

end Heap

/-! ## Runs -/

namespace Store

open Heap

variable {s s' : Store} {op : Operation} {id : ObjectId}

theorem Next.stamped (h : s.Next s') (hs : s.heap.Stamped s.copies) : s'.heap.Stamped s'.copies := by
  obtain ⟨op, hpermits⟩ := h
  have hafter : (s.after op).heap.Stamped s.copies := Touches.stamped (touches_after hpermits) hs
  cases op with
  | copy id => exact hs.copy id
  | request | newWithPayload | newBinding | newActivation | release | load | step => exact hafter

theorem Leads.stamped (h : s.Leads s') (hs : s.heap.Stamped s.copies) : s'.heap.Stamped s'.copies := by
  induction h with
  | refl => exact hs
  | tail _ h ih => exact h.stamped ih

theorem Reachable.stamped (hs : s.Reachable) : s.heap.Stamped s.copies := by
  obtain ⟨limit, hleads⟩ := hs
  exact hleads.stamped (stamped_empty limit)

theorem Leads.ages (h : s.Leads s') (hs : s.heap.Stamped s.copies) : Ages (fun _ => True) s.heap s'.heap := by
  induction h with
  | refl => exact .refl _
  | tail hrest h ih =>
    have htidy := (Leads.stamped hrest hs).tidy
    obtain ⟨op, hpermits⟩ := h
    exact ih.trans (((touches_after hpermits).ages htidy).mono fun _ _ => trivial)

/-- A valid checkpoint vouches for everything but the values of slots. -/
theorem object_eq_of_isValid (hs : s.Reachable) (h : s.Leads s') (hlive : s.heap.isLive id = true)
    (hvalid : (⟨id, s.heap.versionOf id⟩ : Checkpoint).isValid s'.heap = true) :
    s'.heap.object id = { s.heap.object id with slotValues := (s'.heap.object id).slotValues } := by
  obtain ⟨object', hget', hversion⟩ := isValid_iff.1 hvalid
  obtain ⟨object, hget, halike | ⟨-, hlt⟩⟩ :=
    (h.ages hs.stamped).alike id object' (.of_get? (get?_object hlive)) hget'
  · rw [object_of_get? hget, object_of_get? hget']
    exact halike.eq_with_slotValues
  · exact absurd (hs.stamped.versionOf_le hlive) (Nat.not_le_of_lt (hlt.trans_eq hversion))

/-- Objects of one version have one shape, with everything that belongs to it. -/
theorem shape_eq_of_versionOf {id' : ObjectId} (hs : s.Reachable) (hlive : s.heap.isLive id = true)
    (hlive' : s.heap.isLive id' = true) (hne : s.heap.versionOf id ≠ 0)
    (heq : s.heap.versionOf id' = s.heap.versionOf id) : (s.heap.object id').shape = (s.heap.object id).shape :=
  hs.stamped.shape_eq _ _ (.of_get? (get?_object hlive)) (.of_get? (get?_object hlive')) hne heq

/-- A checkpoint that is valid later vouches for everything but the values of slots. An operation gives the object
that it edits a later version and leaves every other version as it is, and a version other than zero belongs to one
shape. -/
theorem checkpoints_sound (hs : s.Reachable) :
    (∀ s' id, s.Leads s' → s.heap.isLive id = true →
      (⟨id, s.heap.versionOf id⟩ : Checkpoint).isValid s'.heap = true →
      s'.heap.object id = { s.heap.object id with slotValues := (s'.heap.object id).slotValues }) ∧
    (∀ op id, s.Permits op → s.heap.isLive id = true → (s.after op).heap.isLive id = true →
      (s.edited? op = some id → s.heap.versionOf id < (s.after op).heap.versionOf id) ∧
        (s.edited? op ≠ some id → (s.after op).heap.versionOf id = s.heap.versionOf id)) ∧
    ∀ id id', s.heap.isLive id = true → s.heap.isLive id' = true → s.heap.versionOf id ≠ 0 →
      s.heap.versionOf id' = s.heap.versionOf id → (s.heap.object id').shape = (s.heap.object id).shape := by
  refine ⟨fun s' id h hlive hvalid => object_eq_of_isValid hs h hlive hvalid,
    fun op id hpermits hlive hlive' => ⟨fun hid => ?_, fun hid => ?_⟩,
    fun id id' hlive hlive' hne heq => shape_eq_of_versionOf hs hlive hlive' hne heq⟩
  · exact (revises_after hid).versionOf_lt hs.stamped hlive hlive'
  · exact ((touches_after hpermits).ages hs.stamped.tidy).versionOf_eq hid hlive hlive'

/-- A program that adds a slot to the lobby. -/
def slotProgram : List Line := [.pushSelf, .push (.text "size"), .push (.int 7), .addSlot .normal]

/-- The process is about to add the slot and has interned its name, which is a copy of the string prototype. -/
theorem checkpoints_sound_rehearsal :
    ∃ (s : Store) (step assign : Operation) (lobby prototype name : ObjectId), s.Reachable ∧
      s.edited? step = some lobby ∧ s.heap.versionOf lobby < (s.after step).heap.versionOf lobby ∧
      ((s.after assign).heap.object lobby).slotValues ≠ (s.heap.object lobby).slotValues ∧
      (s.after assign).heap.object lobby =
        { s.heap.object lobby with slotValues := ((s.after assign).heap.object lobby).slotValues } ∧
      name ≠ prototype ∧ (s.heap.object name).shape = (s.heap.object prototype).shape := by
  have htrial : ((Session.rehearsal slotProgram 3).any fun w =>
      w.scheduler.pool.any fun process => w.heap.strings.any fun entry =>
        let step : Operation := .step w.scheduler.context process []
        let assign : Operation := .request w.roots (.setSlot w.roots.lobby "primitives" (.ref w.roots.nil))
        decide (w.store.edited? step = some w.roots.lobby ∧ w.heap.isLive w.roots.lobby = true ∧
          (w.store.after step).heap.isLive w.roots.lobby = true ∧
          (⟨w.roots.lobby, w.heap.versionOf w.roots.lobby⟩ : Checkpoint).isValid (w.store.after assign).heap = true ∧
          ((w.store.after assign).heap.object w.roots.lobby).slotValues ≠ (w.heap.object w.roots.lobby).slotValues ∧
          w.heap.isLive w.roots.stringPrototype = true ∧ w.heap.isLive entry.2 = true ∧
          entry.2 ≠ w.roots.stringPrototype ∧ w.heap.versionOf w.roots.stringPrototype ≠ 0 ∧
          w.heap.versionOf entry.2 = w.heap.versionOf w.roots.stringPrototype)) = true := by
    decide +kernel
  obtain ⟨w, hw, hcheck⟩ := (Option.any_eq_true _ _).1 htrial
  obtain ⟨process, -, hcheck⟩ := List.any_eq_true.1 hcheck
  obtain ⟨⟨text, name⟩, -, hcheck⟩ := List.any_eq_true.1 hcheck
  obtain ⟨hedited, hlive, hlive', hvalid, hvalues, hprototype, hname, hne, hversion, hsame⟩ := of_decide_eq_true hcheck
  have hreachable : w.Reachable False := Session.reachable_of_rehearsal hw
  obtain ⟨hobject, hversions, hshapes⟩ := checkpoints_sound hreachable.store
  let step : Operation := .step w.scheduler.context process []
  let assign : Operation := .request w.roots (.setSlot w.roots.lobby "primitives" (.ref w.roots.nil))
  refine ⟨w.store, step, assign, w.roots.lobby, w.roots.stringPrototype, name, hreachable.store, hedited, ?_, hvalues,
    ?_, hne, ?_⟩
  · exact (hversions step _ trivial hlive hlive').1 hedited
  · exact hobject _ _ (.single (.after assign trivial)) hlive hvalid
  · exact hshapes _ _ hprototype hname hversion hsame

end Store

end ProtoVm
