import ProtoVm.Proofs.Passage

/-!
# What a session keeps

A step of a session is some acts of its user or a turn of one process, and a turn is one instruction after the
other. So what acts and instructions keep holds in all later sessions.
-/

namespace ProtoVm

namespace Heap

/-- An act, or an object is given back. -/
inductive Deed (bodies : Body → Prop) (copies : List Object) (heap : Heap) : Heap → Prop
  | act {heap' : Heap} (h : Act bodies copies heap heap') : Deed bodies copies heap heap'
  | release (id : ObjectId) : Deed bodies copies heap (heap.release id)

abbrev Deeds (bodies : Body → Prop) (copies : List Object) : Heap → Heap → Prop :=
  Relation.ReflTransGen (Deed bodies copies)

variable {bodies : Body → Prop} {copies : List Object} {heap heap' : Heap} {id : ObjectId}

theorem Acts.deeds (h : Acts bodies copies heap heap') : Deeds bodies copies heap heap' := by
  induction h with
  | refl => exact .refl
  | tail _ h ih => exact ih.tail (.act h)

theorem deeds_releaseAll (heap : Heap) (ids : List ObjectId) : Deeds bodies copies heap (heap.releaseAll ids) := by
  unfold releaseAll
  induction ids generalizing heap with
  | nil => exact .refl
  | cons id ids ih => exact .head (.release id) (ih _)

theorem Deed.tidy (h : Deed bodies copies heap heap') (tidy : heap.Tidy) : heap'.Tidy := by
  cases h with
  | act h => exact h.tidy tidy
  | release id => exact tidy.release id

theorem Deed.issued (h : Deed bodies copies heap heap') (tidy : heap.Tidy) (hid : heap.Issued id) :
    heap'.Issued id := by
  cases h with
  | act h => exact h.issued tidy hid
  | release other => exact hid.release other

/-- What has gone does not come back. -/
theorem Deed.isLive_eq_false (h : Deed bodies copies heap heap') (tidy : heap.Tidy) (hid : heap.Issued id)
    (hdead : heap.isLive id = false) : heap'.isLive id = false := by
  cases h with
  | act h => rw [h.isLive_eq tidy hid, hdead]
  | release other =>
    unfold isLive at hdead ⊢
    rw [get?_release]
    split
    · rfl
    · exact hdead

theorem Deeds.tidy (h : Deeds bodies copies heap heap') (tidy : heap.Tidy) : heap'.Tidy := by
  induction h with
  | refl => exact tidy
  | tail _ h ih => exact h.tidy ih

theorem Deeds.issued (h : Deeds bodies copies heap heap') (tidy : heap.Tidy) (hid : heap.Issued id) :
    heap'.Issued id := by
  induction h with
  | refl => exact hid
  | tail hrest h ih => exact h.issued (Deeds.tidy hrest tidy) ih

theorem Deeds.isLive_eq_false (h : Deeds bodies copies heap heap') (tidy : heap.Tidy) (hid : heap.Issued id)
    (hdead : heap.isLive id = false) : heap'.isLive id = false := by
  induction h with
  | refl => exact hdead
  | tail hrest h ih => exact h.isLive_eq_false (Deeds.tidy hrest tidy) (Deeds.issued hrest tidy hid) ih

/-! ## Properties of all objects -/

def All (Q : Object → Prop) (heap : Heap) : Prop := ∀ id object, heap.get? id = some object → Q object

variable {Q : Object → Prop}

theorem all_empty (limit : Nat) : (Heap.empty limit).All Q := by
  intro id object hget
  simp [Heap.empty, get?] at hget

theorem All.object (h : heap.All Q) (hempty : Q {}) (id : ObjectId) : Q (heap.object id) := by
  unfold Heap.object
  cases hget : heap.get? id with
  | none => exact hempty
  | some object => exact h id object hget

theorem All.update (h : heap.All Q) {edit : Object → Object} (hedit : ∀ object, Q object → Q (edit object))
    (target : ObjectId) : (heap.update target edit).All Q := by
  intro id object hget
  rw [get?_update] at hget
  split at hget
  · obtain ⟨old, hold, rfl⟩ := Option.map_eq_some_iff.1 hget
    exact hedit old (h _ old hold)
  · exact h id object hget

theorem Deed.all (h : Deed bodies copies heap heap') (tidy : heap.Tidy) (hQ : heap.All Q)
    (hmakes : ∀ object, heap.Makes bodies copies object → Q object)
    (hedit : ∀ (edit : Edit) object id version, Q object → Q ((edit.apply object).stamp id version))
    (hassign : ∀ object index value, Q object → Q (object.setSlot index value)) : heap'.All Q := by
  cases h with
  | release released =>
    intro id object hget
    rw [get?_release] at hget
    split at hget
    · cases hget
    · exact hQ id object hget
  | act h =>
    cases h with
    | @make new newId _ h hok =>
      have hadds := allocate_adds tidy hok
      intro id object hget
      by_cases hid : id = newId
      · rw [hid, hadds.get?_self] at hget
        exact Option.some.inj hget ▸ hmakes new h
      · exact hQ id object (hadds.get?_of_ne id hid ▸ hget)
    | withdraw hok => exact fun id object hget => hQ id object (get?_withdraw tidy hok id ▸ hget)
    | edit target edit => exact hQ.update (fun object => hedit edit object _ _) target
    | assign target index value => exact hQ.update (fun object => hassign object index value) target
    | aside hcells hfree hlimit hunit => exact fun id object hget => hQ id object (get?_of_cells hcells id ▸ hget)

/-- A property that new objects have, and that edits keep, is one of all objects. -/
theorem Deeds.all (h : Deeds bodies copies heap heap') (tidy : heap.Tidy) (hQ : heap.All Q)
    (hmakes : ∀ (heap : Heap) object, heap.All Q → heap.Makes bodies copies object → Q object)
    (hedit : ∀ (edit : Edit) object id version, Q object → Q ((edit.apply object).stamp id version))
    (hassign : ∀ object index value, Q object → Q (object.setSlot index value)) : heap'.All Q := by
  induction h with
  | refl => exact hQ
  | tail hrest h ih => exact h.all (Deeds.tidy hrest tidy) ih (fun object => hmakes _ object ih) hedit hassign

end Heap

/-! ## Instructions -/

@[simp] theorem Process.ownFrames_finish (process : Process) (outcome : Outcome) :
    (process.finish outcome).ownFrames = [] := rfl

theorem Frame.Begins.acts {bodies : Body → Prop} {kind : FrameKind} {heap heap' : Heap} {frame : Frame}
    (h : frame.Begins kind heap heap') : Heap.Acts bodies [] heap heap' := by
  obtain ⟨-, hrecords, -⟩ := h
  exact Heap.acts_newRecords hrecords

namespace Machine

variable {bodies : Body → Prop} {m k m' : Machine} {ctx : Context} {fault : Fault}

theorem Closes.deeds (h : m.Closes bodies m') : Heap.Deeds bodies [] m.heap m'.heap := by
  obtain ⟨heap, ids, outcome, hbefore, -, hafter, -⟩ := h
  exact hbefore.deeds.trans ((heap.deeds_releaseAll ids).trans hafter.deeds)

theorem Goes.deeds (h : m.Goes bodies m') : Heap.Deeds bodies [] m.heap m'.heap := by
  cases h with
  | stay h => exact h.acts.deeds
  | call h hframe hprocess => exact h.acts.deeds.trans hframe.acts.deeds
  | park h hheap hframe hprocess => exact h.acts.deeds.trans (hheap.deeds.trans hframe.acts.deeds)
  | @resume k _ index top callers value h hparked hheap hprocess =>
    rw [hheap]
    exact h.acts.deeds.trans (k.heap.deeds_releaseAll _)
  | close h => exact h.deeds

theorem Passes.deeds (h : m.Passes bodies m') : Heap.Deeds bodies [] m.heap m'.heap := by
  cases h with
  | go hreads hi hmakes h => exact h.deeds
  | back hreads hframes hheap hprocess =>
    rw [hheap]
    exact m.heap.deeds_releaseAll _
  | close hreads h => exact h.deeds

theorem Stalls.acts (h : m.Stalls bodies fault k) : Heap.Acts bodies [] m.heap k.heap := by
  cases h with
  | unread hfault h => exact h.acts
  | unmarked hreads hfault h => exact h.acts
  | read hreads hi h => exact h.acts

theorem deeds_advance (ctx : Context) (hm : m.process.Stacked) :
    Heap.Deeds m.Writes [] m.heap (m.advance ctx).heap := by
  rcases advance_cases ctx hm with ⟨-, -, hpasses⟩ | ⟨fault, k, -, hstalls, hgoes, -⟩
  · exact hpasses.deeds
  · exact hstalls.acts.deeds.trans hgoes.deeds

theorem Closes.finish (h : m.Closes bodies m') : ∃ outcome, m'.process = m.process.finish outcome := by
  obtain ⟨-, -, outcome, -, -, -, hprocess⟩ := h
  exact ⟨outcome, hprocess⟩

theorem Goes.finish (h : m.Goes bodies m') :
    m'.process.outcome = m.process.outcome ∨ ∃ outcome, m'.process = m.process.finish outcome := by
  cases h with
  | stay h => exact .inl (Process.outcome_of_bare h.process_eq)
  | call h hframe hprocess | park h hheap hframe hprocess | resume h hparked hheap hprocess =>
    have houtcome := Process.outcome_of_bare h.process_eq
    rw [hprocess]
    exact .inl houtcome
  | close h => exact .inr h.finish

/-- A process ends in one way only: all its frames go, and its outcome is set. -/
theorem advance_finish (ctx : Context) (hm : m.process.Stacked) :
    (m.advance ctx).process.outcome = m.process.outcome ∨
      ∃ outcome, (m.advance ctx).process = m.process.finish outcome := by
  have hfinish {k : Machine} (hid : k.process.id = m.process.id)
      (h : ∃ outcome, (m.advance ctx).process = k.process.finish outcome) :
      ∃ outcome, (m.advance ctx).process = m.process.finish outcome := by
    obtain ⟨outcome, hprocess⟩ := h
    exact ⟨outcome, hprocess.trans (Process.finish_of_id hid outcome)⟩
  rcases advance_cases ctx hm with ⟨-, -, hpasses⟩ | ⟨fault, k, -, hstalls, hgoes, hcloses⟩
  · generalize m.advance ctx = m' at hpasses hfinish
    cases hpasses with
    | @go i _ hreads hi hmakes h => exact h.finish
    | back hreads hframes hheap hprocess =>
      rw [hprocess]
      exact .inl rfl
    | close hreads h => exact .inr h.finish
  · cases hstalls with
    | unread hfault h => exact .inr (hfinish h.id_eq (hcloses hfault).finish)
    | unmarked hreads hfault h => exact .inr (hfinish h.id_eq (hcloses hfault).finish)
    | @read i hreads hi h =>
      cases hfault : fault.isRecoverable with
      | false => exact .inr (hfinish h.id_eq (hcloses hfault).finish)
      | true =>
        have houtcome : k.process.outcome = (m.after i).process.outcome := Process.outcome_of_bare (h.stays hfault)
        rw [show m.process.outcome = k.process.outcome from houtcome.symm]
        exact hgoes.finish.imp_right (hfinish h.id_eq)

/-- What one instruction keeps is kept by a turn. -/
theorem run_invariant {I : Heap → Prop} {J : Process → Prop}
    (hadvance : ∀ m : Machine, m.process.isFinished = false → m.process.Lacks 0 → I m.heap → J m.process →
      I (m.advance ctx).heap ∧ ((m.advance ctx).process.isFinished = false → J (m.advance ctx).process))
    (hfinish : ∀ process outcome, J (Process.finish process outcome)) (budget : Nat) (hI : I m.heap) (hJ : J m.process)
    (hlacks : m.process.isFinished = false → m.process.Lacks 0) :
    I (m.run ctx budget).heap ∧ J (m.run ctx budget).process := by
  induction budget generalizing m with
  | zero => exact ⟨hI, hJ⟩
  | succ budget ih =>
    unfold run
    split
    · exact ⟨hI, hJ⟩
    · rename_i hgoing
      have hm := hlacks (Bool.eq_false_iff.2 hgoing)
      obtain ⟨hheap, hnext⟩ := hadvance m (Bool.eq_false_iff.2 hgoing) hm hI hJ
      refine ih hheap ?_ (advance_lacks hm)
      -- a process that has just ended owes `J` to `hfinish`, as no instruction speaks for it any more
      cases hdone : (m.advance ctx).process.isFinished with
      | false => exact hnext hdone
      | true =>
        rcases advance_finish ctx hm.stacked with heq | ⟨outcome, hprocess⟩
        · rw [Process.isFinished, heq] at hdone
          exact absurd hdone hgoing
        · rw [hprocess]
          exact hfinish _ outcome

end Machine

/-! ## Turns -/

namespace Scheduler

/-- How the pool takes turns: nobody runs, or one process that has not ended goes on while the others wait. -/
inductive Turns (s : Scheduler) : Scheduler → Prop
  | idle {pool : List Process} (h : pool.Sublist s.pool) (journal : List Event) : Turns s { s with pool, journal }
  | turn {process : Process} {rest pool : List Process} (budget : Nat) (journal : List Event)
      (hpool : s.pool.Perm (process :: rest)) (hgoing : process.isFinished = false)
      (hpool' : pool.Perm (((s.machine process).run s.context budget).process :: rest)) :
      Turns s { s with
        heap := ((s.machine process).run s.context budget).heap
        pool
        outcomes := s.outcomes.setIfInBounds ((s.machine process).run s.context budget).process.id
          ((s.machine process).run s.context budget).process.outcome
        journal }

theorem Turns.refl (s : Scheduler) : s.Turns s := .idle (List.Sublist.refl _) s.journal

theorem turns_removeProcess (s : Scheduler) (id : ProcessId) : s.Turns (s.removeProcess id).2 := by
  unfold removeProcess
  split
  · exact .idle List.eraseP_sublist _
  · exact .refl s

theorem turns_runOnce (s : Scheduler) (limit : Nat) : s.Turns (s.runOnce limit).2 := by
  unfold runOnce
  split
  · exact .refl s
  · rename_i process pool hpool
    split
    · exact .idle (hpool ▸ List.sublist_cons_self process pool) _
    · rename_i hgoing
      exact .turn (s.budget limit) _ (.of_eq hpool) (Bool.eq_false_iff.2 hgoing) (List.perm_append_singleton _ _)

theorem turns_tick (s : Scheduler) (index : Nat) : s.Turns (s.tick index) := by
  unfold tick
  split
  · rename_i process hprocess
    split
    · exact .refl s
    · rename_i hgoing
      obtain ⟨hindex, rfl⟩ := List.getElem?_eq_some_iff.1 hprocess
      -- one instruction is a turn with a budget of one
      have hone : (s.machine s.pool[index]).run s.context 1 = (s.machine s.pool[index]).advance s.context := if_neg hgoing
      have hturn := Turns.turn (s := s) 1 ((s.machine s.pool[index]).run s.context 1).journal
        (List.getElem_cons_eraseIdx_perm hindex).symm (Bool.eq_false_iff.2 hgoing)
        (List.set_perm_cons_eraseIdx hindex ((s.machine s.pool[index]).run s.context 1).process)
      rw [hone] at hturn
      exact hturn
  · exact .refl s

end Scheduler

/-! ## Sessions -/

namespace Session

variable {plain : Prop} {w w' : Session}

/-- The user can make methods that run the body. -/
def Has (w : Session) (body : Body) : Prop :=
  body ∈ w.units ∨ ∃ method, w.HasMethod method ∧ method.body = body

theorem acts_perform {r : Request} (h : w.Allows plain r) :
    Heap.Acts w.Has w.copies w.heap (w.perform r).heap := by
  have hpermits : (Heap.Rule.acts w.Has w.copies).Permits w.heap r :=
    { method := fun method hr => .inr ⟨method, h.method method hr, rfl⟩
      unit := fun body params isBlock hr => .inl (h.unit body params isBlock hr)
      copy := h.copy
      assign := fun _ _ _ _ => trivial
      edit := fun _ _ => trivial
      list := fun _ _ => trivial }
  have hrun : (Heap.Rule.acts w.Has w.copies).Governs (r.run w.roots) w.heap := Heap.Rule.governs_request hpermits
  unfold perform
  split
  · exact hrun.of_ok ‹_›
  · exact (hrun.of_error ‹_›).2

/-- A step is acts of the user, who may add a process, or a turn of a process. -/
theorem Step.acts_or_turns (h : w.Step plain w') :
    (Heap.Acts w.Has w.copies w.heap w'.heap ∧ ∀ process' ∈ w'.scheduler.pool, process' ∈ w.scheduler.pool ∨
      ∃ body ∈ w.units, process' =
        Process.start w.scheduler.outcomes.size { body with code := body.code.finalize } (.ref w.roots.lobby)) ∨
    w.scheduler.Turns w'.scheduler := by
  cases h with
  | request r h =>
    refine .inl ⟨acts_perform h, fun process' hprocess' => .inl ?_⟩
    unfold perform at hprocess'
    split at hprocess' <;> exact hprocess'
  | learn h => exact .inl ⟨.refl, fun _ => .inl⟩
  | copy h => exact .inl ⟨.refl, fun _ => .inl⟩
  | load code => exact .inl ⟨.single (.aside rfl rfl rfl (Nat.le_succ _)), fun _ => .inl⟩
  | @add body h =>
    refine .inl ⟨.refl, fun process' hprocess' => ?_⟩
    rcases List.mem_append.1 hprocess' with hold | hnew
    · exact .inl hold
    · exact .inr ⟨body, h, List.mem_singleton.1 hnew⟩
  | remove id => exact .inr (w.scheduler.turns_removeProcess id)
  | run limit => exact .inr (w.scheduler.turns_runOnce limit)
  | tick index => exact .inr (w.scheduler.turns_tick index)
  | note event => exact .inl ⟨.refl, fun _ => .inl⟩

/-- What the user's acts and one instruction keep is kept by a step. -/
theorem Step.invariant {I : Heap → Prop} {J : Process → Prop} (h : w.Step plain w') (hw : w.Reachable plain)
    (hacts : Heap.Acts w.Has w.copies w.heap w'.heap → I w'.heap)
    (hstart : ∀ id, ∀ body ∈ w.units, J (Process.start id { body with code := body.code.finalize } (.ref w.roots.lobby)))
    (hadvance : ∀ ctx (m : Machine), m.process.isFinished = false → m.process.Lacks 0 → I m.heap → J m.process →
      I (m.advance ctx).heap ∧ ((m.advance ctx).process.isFinished = false → J (m.advance ctx).process))
    (hfinish : ∀ process outcome, J (Process.finish process outcome)) (hI : I w.heap)
    (hJ : ∀ process ∈ w.scheduler.pool, J process) : I w'.heap ∧ ∀ process ∈ w'.scheduler.pool, J process := by
  rcases h.acts_or_turns with ⟨hrequest, hpool⟩ | hturns
  · refine ⟨hacts hrequest, fun process' hprocess' => ?_⟩
    rcases hpool process' hprocess' with hold | ⟨body, hbody, rfl⟩
    · exact hJ process' hold
    · exact hstart _ body hbody
  · show I w'.scheduler.heap ∧ _
    generalize w'.scheduler = s at hturns
    cases hturns with
    | idle hpool journal => exact ⟨hI, fun process hprocess => hJ process (hpool.subset hprocess)⟩
    | @turn process rest pool budget journal hpool hgoing hpool' =>
      have hprocess : process ∈ w.scheduler.pool := hpool.mem_iff.2 List.mem_cons_self
      obtain ⟨hheap, hrun⟩ := Machine.run_invariant (m := w.scheduler.machine process) (hadvance w.scheduler.context)
        hfinish budget hI (hJ process hprocess) (hw.lacks hprocess)
      refine ⟨hheap, fun process' hprocess' => ?_⟩
      rcases List.mem_cons.1 (hpool'.mem_iff.1 hprocess') with rfl | hrest
      · exact hrun
      · exact hJ process' (hpool.mem_iff.2 (.tail _ hrest))

theorem reachable_of_steps (hw : w.Reachable plain) (h : Relation.ReflTransGen (Step plain) w w') :
    w'.Reachable plain := by
  induction h with
  | refl => exact hw
  | tail _ h ih => exact .step ih h

end Session

end ProtoVm
