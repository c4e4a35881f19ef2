import ProtoVm.Proofs.Moves
import ProtoVm.Proofs.SessionSafety

/-!
# Raising and resuming

The stack that an error interrupts waits under its number until a token with that number is restored, and
then goes on just as it was. It can be restored only once, and only by its own process.
-/

namespace ProtoVm

namespace Process

variable {maxFrames : Nat} {restores : Nat → Prop} {process process' fetched settled : Process}

/-- A parked stack stays where it is unless it is asked for, and a place that was emptied stays empty. -/
structure Guards (restores : Nat → Prop) (process process' : Process) : Prop where
  id_eq : process'.id = process.id
  outcome_eq : process'.outcome = process.outcome
  parked : ∀ (index : Nat) (stack : Option (List Frame)), process.parked[index]? = some stack →
    process'.parked[index]? = some stack ∨ restores index ∧ process'.parked[index]? = some none

theorem Guards.of_parked_eq (hid : process'.id = process.id)
    (houtcome : process'.outcome = process.outcome) (hparked : process'.parked = process.parked) :
    process.Guards restores process' :=
  ⟨hid, houtcome, fun index stack h => .inl (by rw [hparked, h])⟩

theorem Turns.guards (h : process.Turns maxFrames restores process') :
    process'.isFinished = true ∨ process.Guards restores process' := by
  cases h with
  | stop h => exact .inl h
  | stay => exact .inr (.of_parked_eq rfl rfl rfl)
  | call hip hdepth => exact .inr (.of_parked_eq rfl rfl rfl)
  | back h hplace => exact .inr (.of_parked_eq rfl rfl rfl)
  | park hip =>
    refine .inr ⟨rfl, rfl, fun index stack h => .inl ?_⟩
    obtain ⟨hindex, -⟩ := List.getElem?_eq_some_iff.1 h
    rw [List.getElem?_append_left hindex, h]
  | @resume resumed frame frame' callers hparked hplace hrestores =>
    refine .inr ⟨rfl, rfl, fun index stack h => ?_⟩
    obtain ⟨hindex, -⟩ := List.getElem?_eq_some_iff.1 h
    by_cases heq : resumed = index
    · subst heq
      exact .inr ⟨hrestores, by simp [hindex]⟩
    · exact .inl (by rw [List.getElem?_set_ne heq, h])

theorem settles_eq (hfetch : process.Fetches fetched) (hstay : fetched.Stays settled) :
    settled.id = process.id ∧ settled.outcome = process.outcome ∧ settled.parked = process.parked :=
  ⟨hstay.id_eq.trans hfetch.id_eq, hstay.outcome_eq.trans hfetch.outcome_eq, hstay.parked_eq.trans hfetch.parked_eq⟩

theorem Moves.guards (h : process.Moves maxFrames restores process') :
    process'.isFinished = true ∨ process.Guards restores process' := by
  cases h with
  | stop h => exact .inl h
  | go hfetch hstay h =>
    obtain ⟨hid, houtcome, hparked⟩ := settles_eq hfetch hstay
    refine h.guards.imp_right
      fun hguards => ⟨hguards.id_eq.trans hid, hguards.outcome_eq.trans houtcome, ?_⟩
    rw [← hparked]
    exact hguards.parked

end Process

namespace Machine

variable {ctx : Context} {may : Machine → Prop} {m k j l : Machine}

/-- What happens to a process: instructions of its own, taken from machines that `may` allows, and in between
whatever others do to the heap. -/
inductive Course (ctx : Context) (may : Machine → Prop) (m : Machine) : Machine → Prop
  | start : Course ctx may m m
  | own {k : Machine} (h : Course ctx may m k) (hgoing : k.process.isFinished = false) (hmay : may k) :
      Course ctx may m (k.advance ctx)
  | others {k : Machine} (h : Course ctx may m k) (heap : Heap) (journal : List Event) :
      Course ctx may m { k with heap, journal }

theorem Course.isFinished (h : Course ctx may m k) (hm : m.process.isFinished = true) :
    k.process.isFinished = true := by
  induction h with
  | start => exact hm
  | own _ hgoing _ ih =>
    rw [hgoing] at ih
    cases ih
  | others _ _ _ ih => exact ih

/-- What one instruction guards is guarded on the whole course. -/
theorem Course.guards (h : Course ctx may m k) {restores : Nat → Prop}
    (hmay : ∀ j, may j → j.process.id = m.process.id →
      ∀ index, j.Restores ctx j.process.id index → restores index) :
    k.process.isFinished = true ∨ m.process.Guards restores k.process := by
  induction h with
  | start => exact .inr (.of_parked_eq rfl rfl rfl)
  | @own k _ hgoing hk ih =>
    have hguards := ih.resolve_left (by simp [hgoing])
    refine (moves_advance ctx k).guards.imp_right fun hnext =>
      ⟨hnext.id_eq.trans hguards.id_eq, hnext.outcome_eq.trans hguards.outcome_eq, fun index stack hstack => ?_⟩
    have hask (index : Nat) (hr : k.Restores ctx k.process.id index) :=
      hmay k hk hguards.id_eq index hr
    rcases hguards.parked index stack hstack with hold | ⟨hr, hold⟩
    · exact (hnext.parked index stack hold).imp_right fun h => ⟨hask index h.1, h.2⟩
    · refine .inr ⟨hr, ?_⟩
      rcases hnext.parked index none hold with h | h
      · exact h
      · exact h.2
  | others _ _ _ ih => exact ih

/-! ## One instruction -/

theorem native?_eq_some {sent : Machine} {message : Exec.Message} {native : Native}
    (h : native? ctx sent message = some (native, k)) :
    k.process = sent.process ∧
      Exec.dispatch ctx message.receiver message.selector message.parent message.args sent =
        Exec.callNative ctx native message.selector message.receiver message.args k := by
  unfold native? at h
  split at h
  · cases h
  · rename_i hblock
    split at h
    · rename_i holder value found hresolve
      split at h
      · rename_i hnative
        cases h
        refine ⟨((Exec.steady_resolve _ _ _).of_ok hresolve).2, (get_bind _ sent).trans ?_⟩
        unfold Exec.called? at hblock
        simp only [hblock]
        rw [bind_of_ok hresolve]
        refine (get_bind _ k).trans ?_
        simp only [hnative]
      · cases h
    · cases h

/-- An instruction that comes to a native is the call of the native, once the operands are off the stack. -/
theorem invoked?_eq_some {native : Native} {args : List Value}
    (h : m.invoked? ctx = some (native, args, k)) :
    (∃ fetched, m.process.Fetches fetched ∧ fetched.Stays k.process) ∧
      ∃ selector receiver, Exec.step ctx m = Exec.callNative ctx native selector receiver args k := by
  unfold invoked? at h
  split at h
  · rename_i kind count fetched hfetch
    split at h
    · rename_i message sent hmessage
      obtain ⟨⟨_, _⟩, hnative, heq⟩ := Option.map_eq_some_iff.1 h
      cases heq
      obtain ⟨hprocess, hdispatch⟩ := native?_eq_some hnative
      refine ⟨⟨fetched.process, Exec.ends_fetch.of_ok hfetch, ?_⟩, message.selector,
        message.receiver, ?_⟩
      · rw [hprocess]
        exact ((Exec.steady_message kind count).of_ok hmessage).1
      · rw [Exec.step_eq, bind_of_ok hfetch, show Exec.execute ctx (.send kind count) = _ from Exec.send_eq kind count,
          bind_of_ok hmessage, hdispatch]
    · cases h
  · cases h

/-- The process has ended because of the fault. -/
def EndedBy (fault : Fault) (m : Machine) : Prop :=
  ∃ result display, m.process.outcome = some (.error result display (some fault))

theorem endedBy_terminate (fault : Fault) (m : Machine) :
    (m.terminate ctx fault).EndedBy fault := by
  unfold terminate
  simp only
  split <;> exact ⟨_, _, rfl⟩

theorem endedBy_of_step {fault : Fault} (h : Exec.step ctx m = .error fault k)
    (hfault : fault.isRecoverable = false) : (m.advance ctx).EndedBy fault := by
  unfold advance
  rw [h]
  simp only [fail, hfault, Bool.false_eq_true, if_false]
  exact endedBy_terminate fault k

/-- The next instruction raises an error, by itself or because its search fails; `k` is the machine at that
moment. -/
inductive Raises (ctx : Context) (m k : Machine) : Prop
  | error {value : Value} (h : m.invoked? ctx = some (.raise, [value], k))
  | failed {fault : Fault} {stopped : Machine} {message : Value} (hstep : Exec.step ctx m = .error fault stopped)
      (hfault : fault.isRecoverable = true)
      (hmessage : Exec.onHeap (ctx.roots.newString fault.message) stopped = .ok message k)

theorem Raises.settles (h : m.Raises ctx k) :
    ∃ fetched, m.process.Fetches fetched ∧ fetched.Stays k.process := by
  cases h with
  | error h => exact (invoked?_eq_some h).1
  | @failed fault stopped message hstep hfault hmessage =>
    have hprocess : k.process = stopped.process := ((Exec.steady_onHeap _).of_ok hmessage).2
    rw [hprocess]
    cases hfetch : Exec.fetch m with
    | error fault' failed =>
      rw [Exec.step_eq, bind_of_error hfetch] at hstep
      cases hstep
      rw [Exec.ends_fetch.of_error hfetch] at hfault
      cases hfault
    | ok instruction fetched =>
      rw [Exec.step_eq, bind_of_ok hfetch] at hstep
      exact ⟨fetched.process, Exec.ends_fetch.of_ok hfetch,
        (Exec.turns_execute hfetch).of_error hstep hfault⟩

/-- What follows from an error when there is a handler for it. -/
theorem Raises.parks (h : m.Raises ctx k) {block : ObjectId}
    (hblock : k.process.handler?.bind k.heap.block? = some block) :
    (m.advance ctx).process.isFinished = true ∨
      ∃ frame, (m.advance ctx).process =
        { k.process with frames := [frame], parked := k.process.parked ++ [some k.process.frames] } := by
  cases h with
  | @error value h =>
    obtain ⟨-, selector, receiver, hstep⟩ := invoked?_eq_some h
    have hraise : Exec.step ctx m = Exec.raise ctx (k.heap.effective value) none k := hstep
    unfold advance
    rw [hraise]
    cases hresult : Exec.raise ctx (k.heap.effective value) none k with
    | ok _ m' =>
      obtain ⟨frame, -, heq⟩ := (Exec.raise_of_handler hblock _ _).of_ok hresult
      exact .inr ⟨frame, heq⟩
    | error fault m' =>
      have hfault := (Exec.raise_of_handler hblock _ _).of_error hresult
      simp only [fail, hfault, Bool.false_eq_true, if_false]
      exact .inl (Exec.isFinished_terminate fault m')
  | @failed fault stopped message hstep hfault hmessage =>
    unfold advance
    rw [hstep]
    simp only [fail, hfault, if_true]
    rw [bind_of_ok hmessage]
    cases hresult : Exec.raise ctx message (some fault) k with
    | ok _ m' =>
      obtain ⟨frame, -, heq⟩ := (Exec.raise_of_handler hblock _ _).of_ok hresult
      exact .inr ⟨frame, heq⟩
    | error fault m' => exact .inl (Exec.isFinished_terminate fault m')

/-- A parked stack goes on as it was, with the value as one more operand. -/
theorem restore_of_parked {token value : Value} {index : Nat} {top : Frame} {callers : List Frame}
    (h : m.invoked? ctx = some (.restore, [token, value], k))
    (htoken : k.heap.token? (k.heap.effective token) = some (m.process.id, index))
    (hparked : m.process.parked[index]? = some (some (top :: callers))) :
    (m.advance ctx).process =
      { k.process with
        frames := top.push (k.heap.effective value) :: callers
        parked := m.process.parked.set index none } := by
  obtain ⟨⟨fetched, hfetch, hstay⟩, selector, receiver, hstep⟩ := invoked?_eq_some h
  obtain ⟨hid, -, hsame⟩ := Process.settles_eq hfetch hstay
  have hrestore : Exec.step ctx m = Exec.restore (k.heap.effective token) (k.heap.effective value) k := hstep
  rw [← hid] at htoken
  rw [← hsame] at hparked ⊢
  unfold advance
  rw [hrestore, Exec.restore_of_token? htoken hparked]
  rfl

/-- Every other attempt to restore ends the process. -/
theorem endedBy_of_not_parked {token value : Value}
    (h : m.invoked? ctx = some (.restore, [token, value], k))
    (hnone : ∀ index frames, k.heap.token? (k.heap.effective token) = some (m.process.id, index) →
      m.process.parked[index]? ≠ some (some frames)) : (m.advance ctx).EndedBy .invalidToken := by
  obtain ⟨⟨fetched, hfetch, hstay⟩, selector, receiver, hstep⟩ := invoked?_eq_some h
  obtain ⟨hid, -, hsame⟩ := Process.settles_eq hfetch hstay
  have hrestore : Exec.step ctx m = Exec.restore (k.heap.effective token) (k.heap.effective value) k := hstep
  rw [← hid, ← hsame] at hnone
  rw [Exec.restore_of_ne hnone] at hrestore
  exact endedBy_of_step hrestore rfl

/-! ## Whole courses -/

/-- A stack waits as long as nobody asks for it. -/
theorem Course.waits {index : Nat} {stack : Option (List Frame)}
    (hrun : Course ctx (fun i => ¬i.Restores ctx m.process.id index) m j)
    (hgoing : j.process.isFinished = false) (hparked : m.process.parked[index]? = some stack) :
    j.process.id = m.process.id ∧ j.process.parked[index]? = some stack := by
  have hothers (i : Machine) (hi : ¬i.Restores ctx m.process.id index) (hid : i.process.id = m.process.id)
      (other : Nat) (hr : i.Restores ctx i.process.id other) : other ≠ index := by
    rintro rfl
    exact hi (hid ▸ hr)
  have hguards := (hrun.guards hothers).resolve_left (by simp [hgoing])
  exact ⟨hguards.id_eq, (hguards.parked index stack hparked).resolve_right fun h => h.1 rfl⟩

theorem Course.id_eq (hrun : Course ctx may m j) (hgoing : j.process.isFinished = false) :
    j.process.id = m.process.id :=
  ((hrun.guards (fun _ _ _ _ _ => trivial)).resolve_left (by simp [hgoing]) :
    m.process.Guards (fun _ => True) j.process).id_eq

/-- A stack that was taken is gone for good. -/
theorem Course.stays_empty {index : Nat} (hrun : Course ctx may m j)
    (hgoing : j.process.isFinished = false) (hempty : m.process.parked[index]? = some none) :
    j.process.parked[index]? = some none := by
  have hguards : m.process.Guards (fun _ => True) j.process :=
    (hrun.guards fun _ _ _ _ _ => trivial).resolve_left (by simp [hgoing])
  rcases hguards.parked index none hempty with h | h
  · exact h
  · exact h.2

theorem endedBy_of_empty {owner : ProcessId} {index : Nat}
    (hempty : m.process.parked[index]? = some none) (hr : m.Restores ctx owner index) :
    (m.advance ctx).EndedBy .invalidToken := by
  obtain ⟨token, value, l, hinvoked, htoken⟩ := hr
  refine endedBy_of_not_parked hinvoked fun other frames hother hstack => ?_
  rw [hother] at htoken
  obtain ⟨-, rfl⟩ := Prod.mk.inj (Option.some.inj htoken)
  rw [hempty] at hstack
  cases hstack

/-- An error that finds a handler interrupts the stack of `k`, and its token gets the number of stacks parked
before. On every later course the first restore of that number puts exactly this stack in place, with the
value on top of its operands, and any further one ends the process; so does every restore of what is no
token of the process. -/
theorem resumption (hraise : m.Raises ctx k) {block : ObjectId}
    (hblock : k.process.handler?.bind k.heap.block? = some block) :
    (∀ j, Course ctx (fun i => ¬i.Restores ctx k.process.id k.process.suspend.1) (m.advance ctx) j →
      j.process.isFinished = false → ∀ token value l, j.invoked? ctx = some (.restore, [token, value], l) →
      l.heap.token? (l.heap.effective token) = some (k.process.id, k.process.suspend.1) →
      (∃ top callers, k.process.frames = top :: callers ∧
        (j.advance ctx).process.frames = top.push (l.heap.effective value) :: callers) ∧
      (j.advance ctx).process.isFinished = false ∧
      ∀ j', Course ctx (fun _ => True) (j.advance ctx) j' → j'.process.isFinished = false →
        j'.Restores ctx k.process.id k.process.suspend.1 → (j'.advance ctx).EndedBy .invalidToken) ∧
    ∀ j, Course ctx (fun _ => True) (m.advance ctx) j → j.process.isFinished = false →
      ∀ token value l, j.invoked? ctx = some (.restore, [token, value], l) →
      (∀ index, l.heap.token? (l.heap.effective token) ≠ some (k.process.id, index)) →
      (j.advance ctx).EndedBy .invalidToken := by
  obtain ⟨fetched, hfetch, hstay⟩ := hraise.settles
  obtain ⟨frame, callers, ip, -, hframes, -⟩ := hfetch.frames
  obtain ⟨top, htop, -⟩ := hstay.frames hframes
  have hparks {may : Machine → Prop} {j : Machine} (hrun : Course ctx may (m.advance ctx) j)
      (hgoing : j.process.isFinished = false) :
      (m.advance ctx).process.id = k.process.id ∧
        (m.advance ctx).process.parked[k.process.suspend.1]? = some (some (top :: callers)) := by
    rcases hraise.parks hblock with hend | ⟨frame, heq⟩
    · rw [hrun.isFinished hend] at hgoing
      cases hgoing
    · rw [heq, htop]
      exact ⟨rfl, by simp [Process.suspend]⟩
  refine ⟨fun j hrun hgoing token value l hinvoked htoken => ?_,
    fun j hrun hgoing token value l hinvoked hforeign => ?_⟩
  · obtain ⟨hid, hparked⟩ := hparks hrun hgoing
    rw [← hid] at hrun htoken ⊢
    obtain ⟨hsame, hwaiting⟩ := hrun.waits hgoing hparked
    have hnext := restore_of_parked hinvoked (hsame ▸ htoken) hwaiting
    have hempty : (j.advance ctx).process.parked[k.process.suspend.1]? = some none := by
      obtain ⟨hindex, -⟩ := List.getElem?_eq_some_iff.1 hwaiting
      simp [hnext, hindex]
    obtain ⟨⟨fetched', hfetch', hstay'⟩, -⟩ := invoked?_eq_some hinvoked
    obtain ⟨-, houtcome, -⟩ := Process.settles_eq hfetch' hstay'
    refine ⟨⟨top, callers, htop, by rw [hnext]⟩, ?_, fun j' hrun' hgoing' hr => ?_⟩
    · rw [hnext]
      unfold Process.isFinished at hgoing ⊢
      rw [← hgoing, ← houtcome]
    · exact endedBy_of_empty (hrun'.stays_empty hgoing' hempty) hr
  · obtain ⟨hid, -⟩ := hparks hrun hgoing
    refine endedBy_of_not_parked hinvoked fun index frames hindex => ?_
    rw [hrun.id_eq hgoing, hid] at hindex
    exact absurd hindex (hforeign index)

theorem course_iterate {n : Nat}
    (h : ∀ i < n, ((advance ctx)^[i] m).process.isFinished = false ∧ may ((advance ctx)^[i] m)) :
    Course ctx may m ((advance ctx)^[n] m) := by
  induction n with
  | zero => exact .start
  | succ n ih =>
    rw [Function.iterate_succ_apply']
    obtain ⟨hgoing, hmay⟩ := h n (Nat.lt_succ_self n)
    exact .own (ih fun i hi => h i (Nat.lt_succ_of_lt hi)) hgoing hmay

theorem Course.run (h : Course ctx (fun _ => True) m k) (budget : Nat) :
    Course ctx (fun _ => True) m (k.run ctx budget) := by
  induction budget generalizing k with
  | zero => exact h
  | succ budget ih =>
    unfold Machine.run
    split
    · exact h
    · rename_i hgoing
      exact ih (.own h (Bool.eq_false_iff.2 hgoing) trivial)

/-- Whether the next instruction raises an error that finds a handler, and the instruction after `n` more is
the first to restore the stack it interrupts. -/
def resumesAfter (ctx : Context) (n : Nat) (m : Machine) : Bool :=
  match m.invoked? ctx with
  | some (.raise, [_], k) =>
    (k.process.handler?.bind k.heap.block?).isSome &&
    ((List.range n).all fun i =>
      decide (((advance ctx)^[i] (m.advance ctx)).process.isFinished = false ∧
        ¬((advance ctx)^[i] (m.advance ctx)).Restores ctx k.process.id k.process.suspend.1)) &&
    decide (((advance ctx)^[n] (m.advance ctx)).process.isFinished = false) &&
    decide (((advance ctx)^[n] (m.advance ctx)).Restores ctx k.process.id k.process.suspend.1)
  | _ => false

/-- The demonstration raises an error and resumes after ten more instructions. -/
theorem resumption_trial : ∃ (ctx : Context) (m k j l : Machine) (token value : Value),
    m.Raises ctx k ∧ (k.process.handler?.bind k.heap.block?).isSome ∧
      Course ctx (fun i => ¬i.Restores ctx k.process.id k.process.suspend.1) (m.advance ctx) j ∧
      j.process.isFinished = false ∧ j.invoked? ctx = some (.restore, [token, value], l) ∧
      l.heap.token? (l.heap.effective token) = some (k.process.id, k.process.suspend.1) ∧
      ∃ top callers, k.process.frames = top :: callers ∧
        (j.advance ctx).process.frames = top.push (l.heap.effective value) :: callers := by
  have htrial : ((Session.trial .resume 17).any fun w => w.scheduler.pool.any fun process =>
      (w.scheduler.machine process).resumesAfter w.scheduler.context 10) = true := by
    decide +kernel
  obtain ⟨w, -, hpool⟩ := (Option.any_eq_true _ _).1 htrial
  obtain ⟨process, -, h⟩ := List.any_eq_true.1 hpool
  unfold resumesAfter at h
  split at h
  · rename_i value k hinvoked
    simp only [Bool.and_eq_true, List.all_eq_true, List.mem_range, decide_eq_true_eq] at h
    obtain ⟨⟨⟨hhandler, hwaits⟩, hgoing⟩, hr⟩ := h
    obtain ⟨block, hblock⟩ := Option.isSome_iff_exists.1 hhandler
    obtain ⟨token, arg, l, hrestore, htoken⟩ := hr
    have hrun : Course w.scheduler.context
        (fun i => ¬i.Restores w.scheduler.context k.process.id k.process.suspend.1)
        ((w.scheduler.machine process).advance w.scheduler.context)
        ((advance w.scheduler.context)^[10] ((w.scheduler.machine process).advance w.scheduler.context)) :=
      course_iterate hwaits
    have hraise : (w.scheduler.machine process).Raises w.scheduler.context k := .error hinvoked
    exact ⟨_, _, k, _, l, token, arg, hraise, hhandler, hrun, hgoing, hrestore, htoken,
      ((resumption hraise hblock).1 _ hrun hgoing token arg l hrestore htoken).1⟩
  · cases h

end Machine

/-! ## Courses in a session -/

namespace Scheduler

variable {s s' : Scheduler} {process' : Process}

/-- The process has come on its course from one of the first scheduler's pool. -/
def Continues (s s' : Scheduler) (process' : Process) : Prop :=
  ∃ process ∈ s.pool,
    Machine.Course s.context (fun _ => True) (s.machine process) (s'.machine process')

theorem Continues.of_mem (h : process' ∈ s.pool) : s.Continues s' process' := ⟨process', h, .others .start _ _⟩

theorem continues_runOnce {limit : Nat} (h : process' ∈ (s.runOnce limit).2.pool) :
    s.Continues (s.runOnce limit).2 process' := by
  generalize hrun : (s.runOnce limit).2 = s' at h ⊢
  unfold runOnce at hrun
  split at hrun
  · subst hrun
    exact .of_mem h
  · rename_i process pool hpool
    have hrest {other : Process} (h : other ∈ pool) : other ∈ s.pool := hpool ▸ .tail _ h
    split at hrun
    · subst hrun
      exact .of_mem (hrest h)
    · subst hrun
      rcases List.mem_append.1 h with h | h
      · exact .of_mem (hrest h)
      · cases List.mem_singleton.1 h
        exact ⟨process, hpool ▸ List.mem_cons_self, .others (Machine.Course.run .start _) _ _⟩

theorem continues_tick {index : Nat} (h : process' ∈ (s.tick index).pool) :
    s.Continues (s.tick index) process' := by
  generalize htick : s.tick index = s' at h ⊢
  unfold tick at htick
  split at htick
  · rename_i process hprocess
    split at htick
    · subst htick
      exact .of_mem h
    · rename_i hgoing
      subst htick
      rcases List.mem_or_eq_of_mem_set h with h | rfl
      · exact .of_mem h
      · exact ⟨process, List.mem_of_getElem? hprocess,
          .own .start (Bool.eq_false_iff.2 hgoing) trivial⟩
  · subst htick
    exact .of_mem h

end Scheduler

/-- In a session every process of the pool is a new one or has come on its course. -/
theorem Session.Step.continues {plain : Prop} {w w' : Session} (h : w.Step plain w')
    {process' : Process} (hprocess' : process' ∈ w'.scheduler.pool) :
    (∃ body ∈ w.units, process' =
        Process.start w.scheduler.outcomes.size { body with code := body.code.finalize } (.ref w.roots.lobby)) ∨
      w.scheduler.Continues w'.scheduler process' := by
  cases h with
  | request r h =>
    refine .inr (.of_mem ?_)
    unfold Session.perform at hprocess'
    split at hprocess' <;> exact hprocess'
  | learn h => exact .inr (.of_mem hprocess')
  | copy h => exact .inr (.of_mem hprocess')
  | load code => exact .inr (.of_mem hprocess')
  | add h =>
    rcases List.mem_append.1 hprocess' with hpool | hnew
    · exact .inr (.of_mem hpool)
    · exact .inl ⟨_, h, List.mem_singleton.1 hnew⟩
  | remove id =>
    refine .inr (.of_mem ?_)
    unfold Scheduler.removeProcess at hprocess'
    split at hprocess'
    · exact List.mem_of_mem_eraseP hprocess'
    · exact hprocess'
  | run limit => exact .inr (Scheduler.continues_runOnce hprocess')
  | tick index => exact .inr (Scheduler.continues_tick hprocess')
  | note event => exact .inr (.of_mem hprocess')

end ProtoVm
