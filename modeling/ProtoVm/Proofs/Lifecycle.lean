import ProtoVm.Proofs.Reclamation

/-!
# The life of a process

As long as a process goes on, each of its stacks stands on a handler or on the frame in which the process started,
and nothing is published of it. A process that has ended has no frames, and what is published of it stays.
-/

namespace ProtoVm

/-! ## Stacks -/

def Frame.isHandler (frame : Frame) : Bool := frame.kind.error?.isSome

/-- The frame in which a process starts. It runs for the lobby itself and has no records of a call. -/
def Frame.isOriginal (lobby : Value) (frame : Frame) : Bool :=
  decide (frame.kind = .call ∧ frame.records = [] ∧ frame.activation = lobby ∧ frame.receiver = lobby)

/-- Calls upon a handler or upon the frame in which a process started. -/
inductive Frame.Stack (lobby : Value) : List Frame → Prop
  | original {frame : Frame} (h : frame.isOriginal lobby = true) : Stack lobby [frame]
  | handler {frame : Frame} (h : frame.isHandler = true) : Stack lobby [frame]
  | call {frame : Frame} {stack : List Frame} (h : Stack lobby stack) (hkind : frame.kind = .call) :
      Stack lobby (frame :: stack)

namespace Frame

variable {lobby : Value} {frame frame' : Frame} {stack stack' : List Frame}

/-- What tells the frame of a call from others, wherever the call has come to. -/
def identity (frame : Frame) : FrameKind × List ObjectId × Value × Value :=
  (frame.kind, frame.records, frame.activation, frame.receiver)

theorem identity_of_bare (h : frame'.bare = frame.bare) : frame'.identity = frame.identity := by
  obtain ⟨-, -, hactivation, hreceiver, hkind, hrecords, -⟩ := eq_of_bare h
  rw [identity, identity, hactivation, hreceiver, hkind, hrecords]

theorem kind_of_identity (h : frame'.identity = frame.identity) : frame'.kind = frame.kind :=
  congrArg (·.1) (show _ = _ from h)

theorem isHandler_of_identity (h : frame'.identity = frame.identity) : frame'.isHandler = frame.isHandler := by
  unfold isHandler
  rw [kind_of_identity h]

theorem isOriginal_of_identity (h : frame'.identity = frame.identity) :
    frame'.isOriginal lobby = frame.isOriginal lobby := by
  simp only [identity, Prod.mk.injEq] at h
  simp only [isOriginal, h]

theorem Stack.congr (hs : Stack lobby stack) (h : stack'.map identity = stack.map identity) : Stack lobby stack' := by
  induction hs generalizing stack' with
  | original hframe =>
    obtain ⟨frame', rfl, heq⟩ := List.map_eq_singleton_iff.1 h
    exact .original ((isOriginal_of_identity heq).trans hframe)
  | handler hframe =>
    obtain ⟨frame', rfl, heq⟩ := List.map_eq_singleton_iff.1 h
    exact .handler ((isHandler_of_identity heq).trans hframe)
  | call _ hkind ih =>
    obtain ⟨frame', rest, rfl, heq, hrest⟩ := List.map_eq_cons_iff.1 h
    exact .call (ih hrest) ((kind_of_identity heq).trans hkind)

theorem Stack.ne_nil (hs : Stack lobby stack) : stack ≠ [] := by
  cases hs <;> simp

/-- Upon the bottom there are only calls. -/
theorem Stack.kind_of_mem_dropLast (hs : Stack lobby stack) : ∀ frame ∈ stack.dropLast, frame.kind = .call := by
  induction hs with
  | original h => simp
  | handler h => simp
  | @call frame stack h hkind ih =>
    intro found hfound
    rw [List.dropLast_cons_of_ne_nil h.ne_nil] at hfound
    rcases List.mem_cons.1 hfound with rfl | hfound
    · exact hkind
    · exact ih found hfound

theorem Stack.getLast? (hs : Stack lobby stack) {bottom : Frame} (h : stack.getLast? = some bottom) :
    bottom.isHandler = true ∨ bottom.isOriginal lobby = true := by
  induction hs with
  | original hframe =>
    cases h
    exact .inr hframe
  | handler hframe =>
    cases h
    exact .inl hframe
  | @call frame stack hs hkind ih =>
    obtain ⟨top, callers, rfl⟩ := List.exists_cons_of_ne_nil hs.ne_nil
    rw [List.getLast?_cons_cons] at h
    exact ih h

/-- A call that begins has records. -/
theorem Begins.isOriginal_eq_false {kind : FrameKind} {heap heap' : Heap} (h : frame.Begins kind heap heap') :
    frame.isOriginal lobby = false := by
  obtain ⟨-, -, rfl⟩ := h
  simp [isOriginal, Records.ids]

theorem Begins.kind_eq {kind : FrameKind} {heap heap' : Heap} (h : frame.Begins kind heap heap') :
    frame.kind = kind := by
  obtain ⟨-, -, rfl⟩ := h
  rfl

end Frame

namespace Process

/-- The running stack and the parked ones, those that were taken left out. -/
def allStacks (process : Process) : List (List Frame) := process.frames :: process.parked.filterMap fun stack => stack

/-- The outermost frame of each stack. -/
def bottoms (process : Process) : List Frame := process.allStacks.filterMap List.getLast?

/-- All stacks stand as they should, and at most one on the frame in which the process started. -/
structure Upright (lobby : Value) (process : Process) : Prop where
  running : Frame.Stack lobby process.frames
  parked : ∀ stack, some stack ∈ process.parked → Frame.Stack lobby stack
  original : process.ownFrames.countP (·.isOriginal lobby) ≤ 1

variable {lobby : Value} {process process' : Process}

theorem countP_congr {frames frames' : List Frame}
    (h : (frames'.map Frame.identity).Perm (frames.map Frame.identity)) :
    frames'.countP (·.isOriginal lobby) = frames.countP (·.isOriginal lobby) := by
  have hcount (frames : List Frame) : frames.countP (·.isOriginal lobby) = (frames.map Frame.identity).countP
      fun (kind, records, activation, receiver) =>
        decide (kind = .call ∧ records = [] ∧ activation = lobby ∧ receiver = lobby) := by
    rw [List.countP_map]
    rfl
  rw [hcount, hcount frames]
  exact h.countP_eq _

theorem Upright.congr (h : process.Upright lobby) (hparked : process'.parked = process.parked)
    (hframes : process'.frames.map Frame.identity = process.frames.map Frame.identity) : process'.Upright lobby := by
  refine ⟨h.running.congr hframes, hparked ▸ h.parked, ?_⟩
  have hown : process'.ownFrames.map Frame.identity = process.ownFrames.map Frame.identity := by
    simp only [ownFrames, List.map_append, hframes, hparked]
  rw [countP_congr (.of_eq hown)]
  exact h.original

theorem Upright.of_bare (h : process.Upright lobby) (hbare : process'.bare = process.bare) :
    process'.Upright lobby := by
  refine h.congr (parked_of_bare hbare) ?_
  obtain ⟨top, callers, hframes⟩ := List.exists_cons_of_ne_nil h.running.ne_nil
  obtain ⟨top', hframes', heq⟩ := frames_of_bare hbare hframes
  rw [hframes, hframes', List.map_cons, List.map_cons, Frame.identity_of_bare heq]

theorem Upright.after (h : process.Upright lobby) (i : Instruction) : (process.after i).Upright lobby := by
  refine h.congr rfl ?_
  obtain ⟨top, callers, hframes⟩ := List.exists_cons_of_ne_nil h.running.ne_nil
  rw [Process.after, hframes]
  rfl

theorem upright_start (id : ProcessId) (body : Body) (lobby : Value) : (start id body lobby).Upright lobby := by
  refine ⟨.original (by simp [Frame.isOriginal]), by simp [start], ?_⟩
  exact List.countP_le_length

theorem mem_allStacks {stack : List Frame} :
    stack ∈ process.allStacks ↔ stack = process.frames ∨ some stack ∈ process.parked := by
  simp [allStacks]

theorem Upright.stack (h : process.Upright lobby) {stack : List Frame} (hstack : stack ∈ process.allStacks) :
    Frame.Stack lobby stack := by
  rcases mem_allStacks.1 hstack with rfl | hstack
  · exact h.running
  · exact h.parked stack hstack

/-- The bottoms are frames of the process, each from a stack of its own. -/
theorem bottoms_sublist (process : Process) : process.bottoms.Sublist process.ownFrames := by
  have hlast (stack : List Frame) : stack.getLast?.toList.Sublist stack := by
    cases h : stack.getLast? with
    | none => exact List.nil_sublist _
    | some bottom => exact List.singleton_sublist.2 (List.mem_of_getLast? h)
  have hbottoms (given : List (List Frame)) : (given.filterMap List.getLast?).Sublist given.flatten := by
    induction given with
    | nil => exact List.nil_sublist _
    | cons stack given ih =>
      have happend := (hlast stack).append ih
      cases h : stack.getLast? with
      | none => simpa [h] using happend
      | some bottom => simpa [h] using happend
  have hown : process.allStacks.flatten = process.ownFrames := by
    rw [allStacks, List.flatten_cons, ownFrames]
    congr 1
    induction process.parked with
    | nil => rfl
    | cons stack parked ih => cases stack <;> simp [ih]
  exact hown ▸ hbottoms process.allStacks

end Process

/-! ## Instructions -/

namespace Machine

variable {bodies : Body → Prop} {m k m' : Machine} {ctx : Context} {lobby : Value}

theorem Goes.upright (h : m.Goes bodies m') (hm : m.process.Upright lobby)
    (hgoing : m'.process.isFinished = false) : m'.process.Upright lobby := by
  cases h with
  | stay h => exact hm.of_bare h.process_eq
  | @call k _ frame h hframe hprocess =>
    have hk := hm.of_bare h.process_eq
    rw [hprocess]
    refine ⟨.call hk.running hframe.kind_eq, hk.parked, ?_⟩
    show (frame :: k.process.ownFrames).countP _ ≤ 1
    rw [List.countP_cons_of_neg (by simp [hframe.isOriginal_eq_false])]
    exact hk.original
  | @park k _ frame heap error h hheap hframe hprocess =>
    have hk := hm.of_bare h.process_eq
    rw [hprocess]
    refine ⟨.handler (by simp [Frame.isHandler, hframe.kind_eq, FrameKind.error?]), fun stack hstack => ?_, ?_⟩
    · rcases List.mem_append.1 hstack with hstack | hstack
      · exact hk.parked stack hstack
      · cases List.mem_singleton.1 hstack
        exact hk.running
    · show (frame :: k.process.suspend.2.ownFrames).countP _ ≤ 1
      rw [List.countP_cons_of_neg (by simp [hframe.isOriginal_eq_false]), (Exec.suspend_perm k.process).countP_eq]
      exact hk.original
  | @resume k _ index top callers value h hparked hheap hprocess =>
    have hk := hm.of_bare h.process_eq
    rw [hprocess]
    refine ⟨(hk.parked _ (List.mem_of_getElem? hparked)).congr rfl, fun stack hstack => ?_, ?_⟩
    · exact hk.parked stack ((List.mem_or_eq_of_mem_set hstack).resolve_right (Option.some_ne_none _))
    · -- the frames that go on were parked
      have hperm := (Exec.flatMap_set_none_perm hparked).countP_eq (·.isOriginal lobby)
      have hbefore := hk.original
      simp only [Process.ownFrames, List.countP_append] at hbefore hperm ⊢
      have hpush : (top.push value :: callers).countP (·.isOriginal lobby) =
          (top :: callers).countP (·.isOriginal lobby) := Process.countP_congr (.of_eq rfl)
      omega
  | close h =>
    rw [h.isFinished] at hgoing
    cases hgoing

/-- One instruction leaves all stacks standing. -/
theorem upright_of_advance (hstacked : m.process.Stacked) (hm : m.process.Upright lobby)
    (hgoing : (m.advance ctx).process.isFinished = false) : (m.advance ctx).process.Upright lobby := by
  have hclosed {k : Machine} (h : k.Closes m.Writes (m.advance ctx)) : False := by
    rw [h.isFinished] at hgoing
    cases hgoing
  rcases advance_cases ctx hstacked with ⟨-, -, hpasses⟩ | ⟨fault, k, -, hstalls, hgoes, hcloses⟩
  · generalize m.advance ctx = m' at hpasses hgoing hclosed
    cases hpasses with
    | @go i _ hreads hi hmakes h => exact h.upright (hm.after i) hgoing
    | @back top caller callers value _ hreads hframes hheap hprocess =>
      have hrunning := hm.running
      have horiginal := hm.original
      rw [hframes] at hrunning
      rw [hprocess]
      -- a frame with a caller is no bottom, so the frame that goes is a call
      cases hrunning with
      | call hrest hkind =>
        refine ⟨hrest.congr rfl, hm.parked, ?_⟩
        have hpush : (caller.push value :: callers).countP (·.isOriginal lobby) =
            (caller :: callers).countP (·.isOriginal lobby) := Process.countP_congr (.of_eq rfl)
        have htop : (caller :: callers).countP (·.isOriginal lobby) ≤
            (top :: caller :: callers).countP (·.isOriginal lobby) := (List.sublist_cons_self _ _).countP_le
        simp only [Process.ownFrames, List.countP_append, hframes] at horiginal ⊢
        omega
    | close hreads h => exact (hclosed h).elim
  · cases hstalls with
    | unread hfault h => exact (hclosed (hcloses hfault)).elim
    | unmarked hreads hfault h => exact (hclosed (hcloses hfault)).elim
    | @read i hreads hi h =>
      cases hfault : fault.isRecoverable with
      | false => exact (hclosed (hcloses hfault)).elim
      | true => exact hgoes.upright ((hm.after i).of_bare (h.stays hfault)) hgoing

end Machine

/-! ## What is published -/

/-- What the user can see of a process. -/
structure Status where
  finished : Bool := false
  withError : Bool := false
  result : Option Value := none
  error : Option Fault := none
  display : Option String := none
deriving DecidableEq

namespace Status

def ofOutcome : Option Outcome → Status
  | none => {}
  | some outcome =>
    { finished := true
      withError := outcome.isError
      result := some outcome.result
      error := outcome.cause?
      display := some outcome.display }

/-- The process has ended, with a result and its display, and with a fault only if it ended with an error. -/
structure Closed (status : Status) : Prop where
  finished : status.finished = true
  result : status.result.isSome = true
  display : status.display.isSome = true
  error : status.error.isSome = true → status.withError = true

theorem closed_ofOutcome (outcome : Outcome) : (ofOutcome (some outcome)).Closed := by
  refine ⟨rfl, rfl, rfl, fun h => ?_⟩
  cases outcome with
  | value result display => cases h
  | error result display cause => rfl

end Status

namespace Scheduler

/-- The status of a process that was ever added. -/
def status? (s : Scheduler) (id : ProcessId) : Option Status := s.outcomes[id]?.map Status.ofOutcome

theorem exists_outcome {s : Scheduler} {id : ProcessId} {status : Status} (h : s.status? id = some status)
    (hfinished : status.finished = true) : ∃ outcome, s.outcomes[id]? = some (some outcome) := by
  obtain ⟨outcome, houtcome, rfl⟩ := Option.map_eq_some_iff.1 h
  cases outcome with
  | none => cases hfinished
  | some outcome => exact ⟨outcome, houtcome⟩

/-- Every process of the pool has a number of its own, under which its outcome is published. -/
structure Registered (s : Scheduler) : Prop where
  nodup : (s.pool.map (·.id)).Nodup
  outcome_eq : ∀ process ∈ s.pool, s.outcomes[process.id]? = some process.outcome

/-- What was published of processes that had ended is still there. -/
def Publishes (s s' : Scheduler) : Prop :=
  ∀ (id : ProcessId) (outcome : Outcome), s.outcomes[id]? = some (some outcome) → s'.outcomes[id]? = some (some outcome)

variable {s : Scheduler} {process process' : Process} {rest pool : List Process}

/-- A process goes on while the rest of the pool stays as it is. -/
theorem Registered.resume (hs : s.Registered) (hpool : s.pool.Perm (process :: rest)) (hid : process'.id = process.id)
    (hpool' : pool.Perm (process' :: rest)) (heap : Heap) (journal : List Event) :
    Registered { s with
      heap, pool, outcomes := s.outcomes.setIfInBounds process'.id process'.outcome, journal } := by
  have hids : (s.pool.map (·.id)).Perm (process.id :: rest.map (·.id)) := hpool.map _
  have hids' : (pool.map (·.id)).Perm (process'.id :: rest.map (·.id)) := hpool'.map _
  have hnodup := hids.nodup_iff.1 hs.nodup
  have hbound : process.id < s.outcomes.size :=
    (Array.getElem?_eq_some_iff.1 (hs.outcome_eq process (hpool.mem_iff.2 List.mem_cons_self))).1
  refine ⟨hids'.nodup_iff.2 (hid ▸ hnodup), fun other hother => ?_⟩
  show (s.outcomes.setIfInBounds process'.id process'.outcome)[other.id]? = _
  rcases List.mem_cons.1 (hpool'.mem_iff.1 hother) with rfl | hother
  · simp [hid, hbound]
  · have hne : process'.id ≠ other.id := by
      rw [hid]
      rintro heq
      exact (List.nodup_cons.1 hnodup).1 (heq ▸ List.mem_map.2 ⟨other, hother, rfl⟩)
    rw [Array.getElem?_setIfInBounds_ne hne]
    exact hs.outcome_eq other (hpool.mem_iff.2 (.tail _ hother))

/-- A process that goes on has nothing published that could be overwritten. -/
theorem Registered.publishes (hs : s.Registered) (hprocess : process ∈ s.pool) (hgoing : process.isFinished = false)
    (hid : process'.id = process.id) (heap : Heap) (journal : List Event) :
    s.Publishes { s with
      heap, pool, outcomes := s.outcomes.setIfInBounds process'.id process'.outcome, journal } := by
  intro id outcome houtcome
  have hne : process'.id ≠ id := by
    rintro rfl
    rw [hid, hs.outcome_eq process hprocess] at houtcome
    rw [Process.isFinished, Option.some.inj houtcome] at hgoing
    cases hgoing
  show (s.outcomes.setIfInBounds process'.id process'.outcome)[id]? = _
  rw [Array.getElem?_setIfInBounds_ne hne]
  exact houtcome

/-- Processes leave the pool. -/
theorem Registered.sublist (hs : s.Registered) (h : pool.Sublist s.pool) (journal : List Event) :
    Registered { s with pool, journal } :=
  ⟨hs.nodup.sublist (h.map _), fun process hprocess => hs.outcome_eq process (h.subset hprocess)⟩

theorem Registered.add (hs : s.Registered) (body : Body) :
    (s.addProcess body).2.Registered ∧ s.Publishes (s.addProcess body).2 := by
  have hbound (process : Process) (hprocess : process ∈ s.pool) : process.id < s.outcomes.size :=
    (Array.getElem?_eq_some_iff.1 (hs.outcome_eq process hprocess)).1
  have hpush {id : ProcessId} (hid : id < s.outcomes.size) : (s.outcomes.push none)[id]? = s.outcomes[id]? :=
    Array.getElem?_push_lt hid ▸ (Array.getElem?_eq_getElem hid).symm
  refine ⟨⟨?_, fun process hprocess => ?_⟩, fun id outcome houtcome => ?_⟩
  · simp only [addProcess, List.map_append, List.map_cons, List.map_nil]
    refine List.nodup_append.2 ⟨hs.nodup, List.nodup_singleton _, fun id hid other hother heq => ?_⟩
    obtain ⟨process, hprocess, rfl⟩ := List.mem_map.1 hid
    rw [List.mem_singleton.1 hother] at heq
    exact absurd (hbound process hprocess) (by simp [heq, Process.start])
  · show (s.outcomes.push none)[process.id]? = _
    rcases List.mem_append.1 hprocess with hold | hnew
    · rw [hpush (hbound process hold)]
      exact hs.outcome_eq process hold
    · rw [List.mem_singleton.1 hnew]
      simp [Process.start]
  · show (s.outcomes.push none)[id]? = _
    rw [hpush (Array.getElem?_eq_some_iff.1 houtcome).1]
    exact houtcome

end Scheduler

/-! ## Sessions -/

namespace Session

variable {plain : Prop} {w w' : Session}

theorem Step.roots_eq (h : w.Step plain w') : w'.roots = w.roots := by
  have hturns {s : Scheduler} (h : w.scheduler.Turns s) : s.roots = w.roots := by
    cases h <;> rfl
  cases h with
  | request r h =>
    unfold perform
    split <;> rfl
  | remove id => exact hturns (w.scheduler.turns_removeProcess id)
  | run limit => exact hturns (w.scheduler.turns_runOnce limit)
  | tick index => exact hturns (w.scheduler.turns_tick index)
  | learn | copy | load | add | note => rfl

theorem Step.registered (h : w.Step plain w') (hw : w.Reachable plain) (hr : w.scheduler.Registered) :
    w'.scheduler.Registered ∧ w.scheduler.Publishes w'.scheduler := by
  have hid {process : Process} (hprocess : process ∈ w.scheduler.pool) (budget : Nat) :
      ((w.scheduler.machine process).run w.scheduler.context budget).process.id = process.id := by
    obtain ⟨others, hmachine⟩ := hw.machine_sound hprocess
    have hsound : (w.scheduler.machine process).Sound (w.policy plain) w.scheduler.context.roots others := hmachine
    exact (Machine.follows_run budget hsound).id_eq
  have hturns {s : Scheduler} (h : w.scheduler.Turns s) : s.Registered ∧ w.scheduler.Publishes s := by
    cases h with
    | idle h journal => exact ⟨hr.sublist h journal, fun _ _ => id⟩
    | @turn process rest pool budget journal hpool hgoing hpool' =>
      have hmem : process ∈ w.scheduler.pool := hpool.mem_iff.2 List.mem_cons_self
      exact ⟨hr.resume hpool (hid hmem budget) hpool' _ _, hr.publishes hmem hgoing (hid hmem budget) _ _⟩
  cases h with
  | request r h =>
    unfold perform
    split <;> exact ⟨⟨hr.nodup, hr.outcome_eq⟩, fun _ _ => id⟩
  | learn h => exact ⟨hr, fun _ _ => id⟩
  | copy h => exact ⟨hr, fun _ _ => id⟩
  | load code => exact ⟨⟨hr.nodup, hr.outcome_eq⟩, fun _ _ => id⟩
  | add h => exact hr.add _
  | remove id => exact hturns (w.scheduler.turns_removeProcess id)
  | run limit => exact hturns (w.scheduler.turns_runOnce limit)
  | tick index => exact hturns (w.scheduler.turns_tick index)
  | note event => exact ⟨⟨hr.nodup, hr.outcome_eq⟩, fun _ _ => id⟩

theorem Reachable.registered (hw : w.Reachable plain) : w.scheduler.Registered := by
  induction hw with
  | @start config maxObjects s h =>
    unfold Scheduler.create at h
    split at h
    · cases h
      exact ⟨List.nodup_nil, by simp⟩
    · cases h
  | step hw h ih => exact (h.registered hw ih).1

theorem Reachable.publishes (hw : w.Reachable plain) (hlater : Relation.ReflTransGen (Step plain) w w') :
    w.scheduler.Publishes w'.scheduler := by
  induction hlater with
  | refl => exact fun _ _ => id
  | tail hrest h ih =>
    have hreachable := reachable_of_steps hw hrest
    exact fun id outcome houtcome => (h.registered hreachable hreachable.registered).2 id outcome (ih id outcome houtcome)

/-- A process that goes on stands upright, and one that has ended has no frames. -/
theorem Reachable.upright (hw : w.Reachable plain) : ∀ process ∈ w.scheduler.pool,
    (process.isFinished = false → process.Upright (.ref w.roots.lobby)) ∧
    (process.isFinished = true → process.frames = [] ∧ process.parked = []) := by
  induction hw with
  | @start config maxObjects s h =>
    unfold Scheduler.create at h
    split at h
    · cases h
      simp
    · cases h
  | @step w w' hw h ih =>
    rw [h.roots_eq]
    refine (h.invariant (I := fun _ => True)
      (J := fun process => (process.isFinished = false → process.Upright (.ref w.roots.lobby)) ∧
        (process.isFinished = true → process.frames = [] ∧ process.parked = [])) hw (fun _ => trivial)
      (fun id body hbody => ⟨fun _ => Process.upright_start _ _ _, nofun⟩)
      (fun ctx m hgoing hlacks _ hJ => ⟨trivial, fun hgoing' => ⟨fun _ => ?_, fun hdone => ?_⟩⟩)
      (fun process outcome => ⟨nofun, fun _ => ⟨rfl, rfl⟩⟩) trivial ih).2
    · exact Machine.upright_of_advance hlacks.stacked (hJ.1 hgoing) hgoing'
    · rw [hgoing'] at hdone
      cases hdone

/-- As long as a process goes on its status is blank, its stacks that were not taken are not empty, a handler is only
at the bottom of a stack, and at most one stack stands on the frame in which the process started. A process that has
ended has no frames and a complete status, which nothing changes any more. -/
theorem lifecycle (hw : w.Reachable plain) :
    (∀ process ∈ w.scheduler.pool, process.isFinished = false →
      w.scheduler.status? process.id = some {} ∧
      process.frames ≠ [] ∧
      (∀ stack, some stack ∈ process.parked → stack ≠ []) ∧
      (∀ stack ∈ process.allStacks, ∀ frame ∈ stack.dropLast, frame.isHandler = false) ∧
      (∀ bottom ∈ process.bottoms, bottom.isHandler = true ∨ bottom.isOriginal (.ref w.roots.lobby) = true) ∧
      process.bottoms.countP (·.isOriginal (.ref w.roots.lobby)) ≤ 1) ∧
    (∀ process ∈ w.scheduler.pool, process.isFinished = true →
      process.frames = [] ∧ process.parked = [] ∧
      ∃ status, w.scheduler.status? process.id = some status ∧ status.Closed) ∧
    ∀ id status, w.scheduler.status? id = some status →
      (status = {} ∨ status.Closed) ∧
      (status.finished = true → ∀ w', Relation.ReflTransGen (Step plain) w w' →
        w'.scheduler.status? id = some status) := by
  have hstatus {process : Process} (hprocess : process ∈ w.scheduler.pool) :
      w.scheduler.status? process.id = some (.ofOutcome process.outcome) := by
    rw [Scheduler.status?, hw.registered.outcome_eq process hprocess, Option.map_some]
  refine ⟨fun process hprocess hgoing => ?_, fun process hprocess hdone => ?_,
    fun id status hid => ⟨?_, fun hfinished w' hlater => ?_⟩⟩
  · have hupright := (hw.upright process hprocess).1 hgoing
    have hnone : process.outcome = none := by simpa [Process.isFinished] using hgoing
    refine ⟨by rw [hstatus hprocess, hnone]; rfl, hupright.running.ne_nil,
      fun stack hstack => (hupright.parked stack hstack).ne_nil, fun stack hstack frame hframe => ?_,
      fun bottom hbottom => ?_, ?_⟩
    · rw [Frame.isHandler, (hupright.stack hstack).kind_of_mem_dropLast frame hframe]
      rfl
    · obtain ⟨stack, hstack, hlast⟩ := List.mem_filterMap.1 hbottom
      exact (hupright.stack hstack).getLast? hlast
    · exact Nat.le_trans process.bottoms_sublist.countP_le hupright.original
  · obtain ⟨hframes, hparked⟩ := (hw.upright process hprocess).2 hdone
    obtain ⟨outcome, houtcome⟩ := Option.isSome_iff_exists.1 hdone
    exact ⟨hframes, hparked, _, hstatus hprocess, houtcome ▸ Status.closed_ofOutcome outcome⟩
  · obtain ⟨outcome, -, rfl⟩ := Option.map_eq_some_iff.1 hid
    cases outcome with
    | none => exact .inl rfl
    | some outcome => exact .inr (Status.closed_ofOutcome outcome)
  · obtain ⟨outcome, houtcome⟩ := Scheduler.exists_outcome hid hfinished
    have hlast := hw.publishes hlater id outcome houtcome
    rw [Scheduler.status?, houtcome] at hid
    rw [Scheduler.status?, hlast]
    exact hid

/-- A handler runs while the stack that raised the error is parked, and only that one stands on the first frame. -/
theorem lifecycle_trial :
    ∃ (w : Session) (process : Process) (handler : Frame) (stack : List Frame),
      w.Reachable False ∧ process ∈ w.scheduler.pool ∧ process.frames = [handler] ∧ handler.isHandler = true ∧
      process.parked = [some stack] ∧ w.scheduler.status? process.id = some {} ∧ stack ≠ [] ∧
      process.bottoms.countP (·.isOriginal (.ref w.roots.lobby)) ≤ 1 := by
  have htrial : ((trial .resume 24).any fun w => w.scheduler.pool.any fun process =>
      !process.isFinished && process.frames.length == 1 && process.frames.all (·.isHandler) &&
        process.parked.length == 1 && process.parked.all (·.isSome)) = true := by
    decide +kernel
  obtain ⟨w, hw, hcheck⟩ := (Option.any_eq_true _ _).1 htrial
  obtain ⟨process, hprocess, hcheck⟩ := List.any_eq_true.1 hcheck
  simp only [Bool.and_eq_true, Bool.not_eq_true', beq_iff_eq, List.all_eq_true] at hcheck
  obtain ⟨⟨⟨⟨hgoing, hone⟩, hhandler⟩, hparkedOne⟩, htaken⟩ := hcheck
  obtain ⟨handler, hframes⟩ := List.length_eq_one_iff.1 hone
  obtain ⟨parked, hstacks⟩ := List.length_eq_one_iff.1 hparkedOne
  obtain ⟨stack, rfl⟩ := Option.isSome_iff_exists.1 (htaken parked (hstacks ▸ List.mem_cons_self))
  have hreachable : w.Reachable False := reachable_of_trial hw
  obtain ⟨hstatus, -, hparked, -, -, horiginal⟩ := (lifecycle hreachable).1 process hprocess hgoing
  exact ⟨w, process, handler, stack, hreachable, hprocess, hframes, hhandler handler (hframes ▸ List.mem_cons_self),
    hstacks, hstatus, hparked stack (hstacks ▸ List.mem_cons_self), horiginal⟩

end Session

end ProtoVm
