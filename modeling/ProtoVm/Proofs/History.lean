import ProtoVm.Proofs.Upkeep

/-!
# Histories

A history is what the user did, one action after the other. Every action has one outcome, so that a history and the
session in which it begins say what the session has come to.
-/

namespace ProtoVm

/-- What can be done in a session. A unit is named by its place among those in hand. -/
inductive Action
  | request (r : Request)
  | learn (value : Value)
  | copy (id : ObjectId)
  | load (code : Code)
  | add (unit : Nat)
  | remove (id : ProcessId)
  | run (limit : Nat)
  | tick (index : Nat)
  | note (event : Event)

namespace Session

def after (w : Session) : Action → Session
  | .request r => w.perform r
  | .learn value => { w with known := value :: w.known }
  | .copy id => { w with copies := w.heap.object id :: w.copies }
  | .load code =>
    { w with scheduler := (w.scheduler.load code).2, units := (w.scheduler.load code).1 :: w.units }
  | .add unit =>
    match w.units[unit]? with
    | some body => { w with scheduler := (w.scheduler.addProcess body).2 }
    | none => w
  | .remove id => { w with scheduler := (w.scheduler.removeProcess id).2 }
  | .run limit => { w with scheduler := (w.scheduler.runOnce limit).2 }
  | .tick index => { w with scheduler := w.scheduler.tick index }
  | .note event => { w with scheduler := w.scheduler.note event }

/-- The user can only name what is in hand. -/
def Permits (plain : Prop) (w : Session) : Action → Prop
  | .request r => w.Allows plain r
  | .learn value => w.Readable value
  | .copy id => .ref id ∈ w.known
  | .add unit => unit < w.units.length
  | .load _ | .remove _ | .run _ | .tick _ | .note _ => True

def afterAll : Session → List Action → Session := List.foldl after

/-- Each action of the history is permitted in its place. -/
def PermitsAll (plain : Prop) : Session → List Action → Prop
  | _, [] => True
  | w, action :: rest => w.Permits plain action ∧ (w.after action).PermitsAll plain rest

variable {plain : Prop} {w w' : Session} {action : Action} {actions rest : List Action}

theorem step_iff : w.Step plain w' ↔ ∃ action, w.Permits plain action ∧ w.after action = w' := by
  constructor
  · intro h
    cases h with
    | request r h => exact ⟨.request r, h, rfl⟩
    | @learn value h => exact ⟨.learn value, h, rfl⟩
    | @copy id h => exact ⟨.copy id, h, rfl⟩
    | load code => exact ⟨.load code, trivial, rfl⟩
    | @add body h =>
      obtain ⟨unit, hunit⟩ := List.mem_iff_getElem?.1 h
      exact ⟨.add unit, (List.getElem?_eq_some_iff.1 hunit).1, by simp [after, hunit]⟩
    | remove id => exact ⟨.remove id, trivial, rfl⟩
    | run limit => exact ⟨.run limit, trivial, rfl⟩
    | tick index => exact ⟨.tick index, trivial, rfl⟩
    | note event => exact ⟨.note event, trivial, rfl⟩
  · rintro ⟨action, h, rfl⟩
    cases action with
    | request r => exact .request r h
    | learn value => exact .learn h
    | copy id => exact .copy h
    | load code => exact .load code
    | add unit =>
      simp only [after, List.getElem?_eq_getElem h]
      exact .add (List.getElem_mem h)
    | remove id => exact .remove id
    | run limit => exact .run limit
    | tick index => exact .tick index
    | note event => exact .note event

theorem Permits.step (h : w.Permits plain action) : w.Step plain (w.after action) := step_iff.2 ⟨action, h, rfl⟩

theorem permitsAll_append :
    w.PermitsAll plain (actions ++ rest) ↔ w.PermitsAll plain actions ∧ (w.afterAll actions).PermitsAll plain rest := by
  induction actions generalizing w with
  | nil => simp [PermitsAll, afterAll]
  | cons action actions ih => simp [PermitsAll, ih, and_assoc, afterAll]

theorem PermitsAll.steps (h : w.PermitsAll plain actions) :
    Relation.ReflTransGen (Step plain) w (w.afterAll actions) := by
  induction actions generalizing w with
  | nil => exact .refl
  | cons action actions ih => exact .head h.1.step (ih h.2)

theorem PermitsAll.reachable (h : w.PermitsAll plain actions) (hw : w.Reachable plain) :
    (w.afterAll actions).Reachable plain :=
  reachable_of_steps hw h.steps

/-! ## Histories that can be checked -/

/-- The request brings no code and no copy of an object. -/
def brings : Request → Bool
  | .newObjectWith (.method _) | .newMethod .. | .allocate _ => true
  | _ => false

/-- Whether an action is permitted, for requests that bring nothing. -/
def grants (w : Session) : Action → Bool
  | .request r => !brings r && r.target?.all w.heap.isLive && r.named.all (· ∈ w.known) &&
      r.stored.all fun value => value ∈ w.known && (w.heap.object? value).all (!·.isActivation)
  | .learn (.fixnum _) => true
  | .learn (.ref id) => id ∈ w.roots.ids
  | .copy id => .ref id ∈ w.known
  | .add unit => unit < w.units.length
  | .load _ | .remove _ | .run _ | .tick _ | .note _ => true

/-- A request that brings nothing only needs what it names. -/
theorem allows_of_brings {r : Request} (hbrings : brings r = false) (htarget : r.target?.all w.heap.isLive = true)
    (hnamed : ∀ value ∈ r.named, value ∈ w.known) (hstored : ∀ value ∈ r.stored, value ∈ w.known)
    (hplain : plain → ∀ value ∈ r.stored, ∀ object, w.heap.object? value = some object → object.isActivation = false) :
    w.Allows plain r := by
  refine ⟨fun id hid => ?_, hnamed, hstored, hplain, ?_, ?_, ?_⟩
  · simpa [hid] using htarget
  · rintro method rfl
    cases hbrings
  · rintro body params isBlock rfl
    cases hbrings
  · rintro copy rfl
    cases hbrings

theorem permits_of_grants (h : w.grants action = true) : w.Permits plain action := by
  cases action with
  | learn value =>
    cases value with
    | fixnum n => exact .fixnum n
    | ref id => exact .root (by simpa [grants] using h)
  | copy id => simpa [grants, Permits] using h
  | add unit => simpa [grants, Permits] using h
  | load | remove | run | tick | note => trivial
  | request r =>
    simp only [grants, Bool.and_eq_true, Bool.not_eq_true', List.all_eq_true, decide_eq_true_eq] at h
    obtain ⟨⟨⟨hbrings, htarget⟩, hnamed⟩, hstored⟩ := h
    refine allows_of_brings hbrings htarget hnamed (fun value hvalue => (hstored value hvalue).1) ?_
    intro _ value hvalue object hobject
    simpa [hobject] using (hstored value hvalue).2

def grantsAll : Session → List Action → Bool
  | _, [] => true
  | w, action :: rest => w.grants action && (w.after action).grantsAll rest

theorem permitsAll_of_grantsAll (h : w.grantsAll actions = true) : w.PermitsAll plain actions := by
  induction actions generalizing w with
  | nil => trivial
  | cons action actions ih =>
    obtain ⟨hfirst, hrest⟩ := Bool.and_eq_true_iff.1 h
    exact ⟨permits_of_grants hfirst, ih hrest⟩

/-- What a new session with room for a hundred objects comes to. -/
def enact (config : Config) (actions : List Action) : Option Session :=
  match Scheduler.create config 100 with
  | .ok s => if grantsAll { scheduler := s } actions then some (afterAll { scheduler := s } actions) else none
  | .error _ => none

theorem reachable_of_enact {config : Config} (h : enact config actions = some w) : w.Reachable plain := by
  unfold enact at h
  split at h
  · rename_i s hs
    split at h
    · rename_i hgrants
      cases h
      exact (permitsAll_of_grantsAll hgrants).reachable (.start hs)
    · cases h
  · cases h

/-- Whether an action is permitted to a user who may store activations and asks for the results of processes. -/
def concedes (w : Session) : Action → Bool
  | .request r => !brings r && r.target?.all w.heap.isLive && r.named.all (· ∈ w.known) && r.stored.all (· ∈ w.known)
  | .learn value =>
    w.grants (.learn value) || w.scheduler.outcomes.toList.any fun outcome? => outcome?.any (·.result == value)
  | action => w.grants action

theorem permits_of_concedes (h : w.concedes action = true) : w.Permits False action := by
  cases action with
  | request r =>
    simp only [concedes, Bool.and_eq_true, Bool.not_eq_true', List.all_eq_true, decide_eq_true_eq] at h
    obtain ⟨⟨⟨hbrings, htarget⟩, hnamed⟩, hstored⟩ := h
    exact allows_of_brings hbrings htarget hnamed hstored False.elim
  | learn value =>
    rcases Bool.or_eq_true_iff.1 h with hgrants | hresult
    · exact permits_of_grants hgrants
    · obtain ⟨outcome?, hmem, hany⟩ := List.any_eq_true.1 hresult
      obtain ⟨outcome, rfl, heq⟩ := (Option.any_eq_true _ _).1 hany
      obtain ⟨process, hprocess⟩ := List.mem_iff_getElem?.1 hmem
      exact eq_of_beq heq ▸ .result (by simpa using hprocess)
  | _ => exact permits_of_grants h

/-- Does what is permitted and leaves out the rest. -/
def attempt (w : Session) (action : Action) : Session := if w.concedes action then w.after action else w

theorem Reachable.attempts (hw : w.Reachable False) (actions : List Action) :
    (actions.foldl attempt w).Reachable False := by
  induction actions generalizing w with
  | nil => exact hw
  | cons action actions ih =>
    refine ih ?_
    unfold attempt
    split
    · rename_i hconcedes
      exact hw.step (permits_of_concedes hconcedes).step
    · exact hw

end Session

end ProtoVm
