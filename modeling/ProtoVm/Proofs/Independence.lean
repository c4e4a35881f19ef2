import ProtoVm.Proofs.FreshSession
import ProtoVm.Proofs.Termination
import ProtoVm.Proofs.Twins

/-!
# Independent processes

Processes that change only objects of their own end as each of them ends alone, whatever the quantum and the
order in which they were added. The run that processes share is followed instruction by instruction, and beside
each process the machine that runs it alone comes along.
-/

namespace ProtoVm

/-! ## The moments of a run -/

namespace Machine

/-- The machine before each of at most `budget` instructions. -/
def moments (ctx : Context) : Nat → Machine → List Machine
  | 0, _ => []
  | budget + 1, m => if m.process.isFinished then [] else m :: moments ctx budget (m.advance ctx)

theorem moments_of_isFinished {ctx : Context} {m : Machine} (h : m.process.isFinished = true) (budget : Nat) :
    m.moments ctx budget = [] := by
  cases budget with
  | zero => rfl
  | succ budget => simp [moments, h]

/-- The process has made the object at one of the `earlier` moments, and it is no interned string. -/
def Owns (ctx : Context) (earlier : List Machine) (m : Machine) (id : ObjectId) : Prop :=
  (∀ entry ∈ m.heap.strings, entry.2 ≠ id) ∧
    ∃ k ∈ earlier, k.process.id = m.process.id ∧ k.heap.isLive id = false ∧ (k.advance ctx).heap.isLive id = true

instance {ctx : Context} {earlier : List Machine} {m : Machine} {id : ObjectId} : Decidable (m.Owns ctx earlier id) :=
  inferInstanceAs (Decidable (_ ∧ _))

/-- At every moment that comes after the `earlier` ones a process only writes to objects of its own. -/
def OwnWrites (ctx : Context) : List Machine → List Machine → Prop
  | _, [] => True
  | earlier, m :: later => (∀ id ∈ m.written? ctx, m.Owns ctx earlier id) ∧ OwnWrites ctx (m :: earlier) later

instance decidableOwnWrites (ctx : Context) : ∀ earlier later, Decidable (OwnWrites ctx earlier later)
  | _, [] => .isTrue trivial
  | earlier, m :: later =>
    have := decidableOwnWrites ctx (m :: earlier) later
    inferInstanceAs (Decidable (_ ∧ _))

theorem ownWrites_append {ctx : Context} {earlier first second : List Machine} :
    OwnWrites ctx earlier (first ++ second) ↔
      OwnWrites ctx earlier first ∧ OwnWrites ctx (first.reverse ++ earlier) second := by
  induction first generalizing earlier with
  | nil => simp [OwnWrites]
  | cons m first ih => simp [OwnWrites, ih, and_assoc]

/-- The machine is sound, and what it remembers of earlier searches is right. -/
structure Trusty (policy : Policy) (roots : Roots) (others : List Frame) (m : Machine) : Prop where
  sound : m.Sound policy roots others
  remembers : m.heap.Remembers roots

variable {policy : Policy} {ctx : Context} {others : List Frame} {m : Machine}

theorem Trusty.clear {roots : Roots} (ht : m.Trusty policy roots others) : m.heap.Clear roots :=
  Heap.clear ht.sound.coherent ht.remembers

theorem Trusty.advance (ctx : Context) (ht : m.Trusty policy ctx.roots others) :
    (m.advance ctx).Trusty policy ctx.roots others :=
  ⟨(follows_advance ht.sound).sound, ht.remembers.evolves ht.sound.coherent (follows_advance ht.sound).heap.evolves⟩

/-- The process comes to this end, and never finds the heap full on its way. -/
inductive Trail (ctx : Context) : Heap → Process → Outcome → Prop
  | ended {heap : Heap} {process : Process} {outcome : Outcome} (h : process.outcome = some outcome) :
      Trail ctx heap process outcome
  | next {m : Machine} {outcome : Outcome} (hgoing : m.process.isFinished = false) (hclear : m.heap.Clear ctx.roots)
      (hroom : m.runsOut ctx = false) (h : Trail ctx (m.advance ctx).heap (m.advance ctx).process outcome) :
      Trail ctx m.heap m.process outcome

theorem Trail.eq_of_ended {heap : Heap} {process : Process} {outcome outcome' : Outcome}
    (h : Trail ctx heap process outcome) (hend : process.outcome = some outcome') : outcome = outcome' := by
  cases h with
  | ended h => exact Option.some.inj (h.symm.trans hend)
  | next hgoing => simp [Process.isFinished, hend] at hgoing

/-- The next instruction of a process that has not ended. -/
theorem Trail.of_going {heap : Heap} {process : Process} {outcome : Outcome} (h : Trail ctx heap process outcome)
    (hgoing : process.isFinished = false) :
    ∃ m : Machine, m.heap = heap ∧ m.process = process ∧ m.heap.Clear ctx.roots ∧ m.runsOut ctx = false ∧
      Trail ctx (m.advance ctx).heap (m.advance ctx).process outcome := by
  cases h with
  | ended h => simp [Process.isFinished, h] at hgoing
  | next _ hclear hroom h => exact ⟨_, rfl, rfl, hclear, hroom, h⟩

theorem Trail.of_run {outcome : Outcome} {budget : Nat} (ht : m.Trusty policy ctx.roots others)
    (hroom : ∀ k ∈ m.moments ctx budget, k.runsOut ctx = false)
    (h : Trail ctx (m.run ctx budget).heap (m.run ctx budget).process outcome) :
    Trail ctx m.heap m.process outcome := by
  induction budget generalizing m with
  | zero => exact h
  | succ budget ih =>
    cases hgoing : m.process.isFinished with
    | true => rwa [run_of_isFinished _ hgoing] at h
    | false =>
      rw [run_succ _ hgoing] at h
      simp only [moments, hgoing, Bool.false_eq_true, if_false, List.mem_cons, forall_eq_or_imp] at hroom
      exact .next hgoing ht.clear hroom.1 (ih (ht.advance ctx) hroom.2 h)

end Machine

namespace Scheduler

/-- The machine before each instruction of at most `turns` turns. -/
def moments (limit : Nat) : Nat → Scheduler → List Machine
  | 0, _ => []
  | turns + 1, s =>
    match s.pool with
    | [] => []
    | process :: _ =>
      (s.machine process).moments s.context (s.budget limit) ++ moments limit turns (s.runOnce limit).2

/-- The heap does not run out. -/
def HasRoom (s : Scheduler) (limit : Nat) : Prop := ∀ m ∈ s.moments limit limit, m.runsOut s.context = false

instance {s : Scheduler} {limit : Nat} : Decidable (s.HasRoom limit) :=
  inferInstanceAs (Decidable (∀ m ∈ s.moments limit limit, m.runsOut s.context = false))

/-- No process ever adds a slot to an object that it did not make, or assigns to a slot of such an object. -/
def OwnWrites (s : Scheduler) (limit : Nat) : Prop := Machine.OwnWrites s.context [] (s.moments limit limit)

instance {s : Scheduler} {limit : Nat} : Decidable (s.OwnWrites limit) :=
  inferInstanceAs (Decidable (Machine.OwnWrites s.context [] (s.moments limit limit)))

section

variable {s : Scheduler} {limit turns : Nat} {process : Process} {rest : List Process}

theorem runTurns_cons (hpool : s.pool = process :: rest) :
    s.runTurns limit (turns + 1) = (s.runOnce limit).2.runTurns limit turns := by
  rw [runTurns]
  cases h : process.isFinished <;> simp [runOnce, hpool, h]

theorem moments_cons (hpool : s.pool = process :: rest) :
    s.moments limit (turns + 1) =
      (s.machine process).moments s.context (s.budget limit) ++ (s.runOnce limit).2.moments limit turns := by
  rw [moments, hpool]

/-- A process that has ended leaves the pool. -/
theorem runOnce_of_isFinished (hpool : s.pool = process :: rest) (h : process.isFinished = true) :
    (s.runOnce limit).2 = { s with pool := rest, journal := .retired process.id :: s.journal } := by
  simp only [runOnce, hpool, h, if_true]
  rfl

/-- A process that has not ended comes to the end of the pool, and its outcome is recorded. -/
theorem runOnce_of_going (limit : Nat) (hpool : s.pool = process :: rest) (h : process.isFinished = false) :
    ∃ journal, (s.runOnce limit).2 =
      { s with
        heap := ((s.machine process).run s.context (s.budget limit)).heap
        pool := rest ++ [((s.machine process).run s.context (s.budget limit)).process]
        outcomes := s.outcomes.setIfInBounds ((s.machine process).run s.context (s.budget limit)).process.id
          ((s.machine process).run s.context (s.budget limit)).process.outcome
        journal } := by
  refine ⟨(s.runOnce limit).2.journal, ?_⟩
  simp only [runOnce, hpool, h, Bool.false_eq_true, if_false]
  rfl

end

end Scheduler

namespace Session

variable {plain : Prop} {w : Session}

theorem Sound.trusty (hs : w.Sound plain) {process : Process} {rest : List Process}
    (hpool : w.scheduler.pool.Perm (process :: rest)) :
    (w.scheduler.machine process).Trusty (w.policy plain) w.scheduler.context.roots (rest.flatMap (·.ownFrames)) :=
  ⟨hs.machine hpool, hs.remembers⟩

/-- The only process of a session comes to its end. -/
theorem Sound.trail (hs : w.Sound plain) {process : Process} (hpool : w.scheduler.pool = [process])
    (hrecorded : w.scheduler.outcomes[process.id]? = some process.outcome) {limit turns : Nat}
    (hroom : ∀ k ∈ w.scheduler.moments limit turns, k.runsOut w.scheduler.context = false)
    (hend : (w.scheduler.runTurns limit turns).pool = []) :
    ∃ outcome, (w.scheduler.runTurns limit turns).outcomes[process.id]? = some (some outcome) ∧
      Machine.Trail w.scheduler.context w.heap process outcome := by
  induction turns generalizing w process with
  | zero =>
    rw [Scheduler.runTurns, hpool] at hend
    cases hend
  | succ turns ih =>
    have hsound := hs.run limit
    rw [Scheduler.runTurns_cons hpool] at hend ⊢
    rw [Scheduler.moments_cons hpool] at hroom
    cases hgoing : process.isFinished with
    | true =>
      obtain ⟨outcome, houtcome⟩ := Option.isSome_iff_exists.1 hgoing
      rw [Scheduler.runOnce_of_isFinished hpool hgoing, Scheduler.runTurns_of_pool_eq_nil rfl]
      exact ⟨outcome, by rw [← houtcome, ← hrecorded], .ended houtcome⟩
    | false =>
      have htrusty := hs.trusty (.of_eq hpool)
      obtain ⟨journal, hturn⟩ := Scheduler.runOnce_of_going limit hpool hgoing
      have hfollows := Machine.follows_run (w.scheduler.budget limit) htrusty.sound
      set m := (w.scheduler.machine process).run w.scheduler.context (w.scheduler.budget limit) with hm
      have hid : m.process.id = process.id := hfollows.id_eq
      have hlt : process.id < w.scheduler.outcomes.size := (Array.getElem?_eq_some_iff.1 hrecorded).1
      rw [hid] at hturn
      rw [hturn] at hsound hend hroom ⊢
      obtain ⟨outcome, houtcome, htrail⟩ := ih hsound rfl (by simp [hid, hlt])
        (fun k hk => hroom k (List.mem_append_right _ hk)) hend
      rw [hid] at houtcome
      exact ⟨outcome, houtcome, .of_run htrusty (fun k hk => hroom k (List.mem_append_left _ hk)) htrail⟩

end Session

/-! ## Processes beside each other -/

/-- Every process of the pool is matched by a process that runs alone, has objects of its own and comes to
the end that is given for it. -/
structure Accords (g : Ground) (ctx : Context) (ends : ProcessId → Outcome) (R : ProcessId → Pairing)
    (lone : ProcessId → Machine) (heap : Heap) (pool : List Process) : Prop where
  nodup : (pool.map (·.id)).Nodup
  mirror : ∀ p ∈ pool, Mirror (g.setting 0 p.id) (R p.id) (lone p.id).heap heap
  process : ∀ p ∈ pool, Process.Match (g.setting 0 p.id) (R p.id) (lone p.id).process p
  trail : ∀ p ∈ pool, Machine.Trail ctx (lone p.id).heap (lone p.id).process (ends p.id)
  apart : ∀ p ∈ pool, ∀ q ∈ pool, p.id ≠ q.id → (R p.id).Apart (R q.id)

namespace Accords

variable {g : Ground} {ctx : Context} {ends : ProcessId → Outcome} {R : ProcessId → Pairing}
  {lone : ProcessId → Machine} {heap heap' : Heap} {p p' : Process} {rest : List Process}

theorem id_ne (h : Accords g ctx ends R lone heap (p :: rest)) {q : Process} (hq : q ∈ rest) : q.id ≠ p.id := by
  intro heq
  exact (List.nodup_cons.1 h.nodup).1 (List.mem_map.2 ⟨q, hq, heq⟩)

/-- The first process goes on together with its match, and the others find their own objects as they were. -/
theorem replace (h : Accords g ctx ends R lone heap (p :: rest)) (hid : p'.id = p.id) {R' : Pairing} {m₀ : Machine}
    (hmirror : Mirror (g.setting 0 p.id) R' m₀.heap heap')
    (hprocess : Process.Match (g.setting 0 p.id) R' m₀.process p')
    (htrail : Machine.Trail ctx m₀.heap m₀.process (ends p.id))
    (hothers : ∀ q ∈ rest, Mirror (g.setting 0 q.id) (R q.id) (lone q.id).heap heap' ∧ R'.Apart (R q.id)) :
    Accords g ctx ends (Function.update R p.id R') (Function.update lone p.id m₀) heap' (p' :: rest) := by
  have hR (q : Process) (hq : q ∈ rest) : Function.update R p.id R' q.id = R q.id :=
    Function.update_of_ne (h.id_ne hq) _ _
  have hlone (q : Process) (hq : q ∈ rest) : Function.update lone p.id m₀ q.id = lone q.id :=
    Function.update_of_ne (h.id_ne hq) _ _
  constructor
  case nodup => simpa only [List.map_cons, hid] using h.nodup
  case mirror =>
    intro q hq
    rcases List.mem_cons.1 hq with rfl | hq
    · rwa [hid, Function.update_self, Function.update_self]
    · rw [hR q hq, hlone q hq]
      exact (hothers q hq).1
  case process =>
    intro q hq
    rcases List.mem_cons.1 hq with rfl | hq
    · rwa [hid, Function.update_self, Function.update_self]
    · rw [hR q hq, hlone q hq]
      exact h.process q (.tail _ hq)
  case trail =>
    intro q hq
    rcases List.mem_cons.1 hq with rfl | hq
    · rwa [hid, Function.update_self]
    · rw [hlone q hq]
      exact h.trail q (.tail _ hq)
  case apart =>
    intro q hq r hr hqr
    rcases List.mem_cons.1 hq with rfl | hq' <;> rcases List.mem_cons.1 hr with rfl | hr'
    · exact absurd rfl hqr
    · rw [hid, Function.update_self, hR r hr']
      exact (hothers r hr').2
    · rw [hid, Function.update_self, hR q hq']
      exact (hothers q hq').2.symm
    · rw [hR q hq', hR r hr']
      exact h.apart q (.tail _ hq') r (.tail _ hr') hqr

end Accords

/-- The processes of the pool can be matched. -/
def Ensemble (g : Ground) (ctx : Context) (ends : ProcessId → Outcome) (heap : Heap) (pool : List Process) : Prop :=
  ∃ R lone, Accords g ctx ends R lone heap pool

namespace Ensemble

variable {g : Ground} {maxFrames : Nat} {ends : ProcessId → Outcome} {heap : Heap} {pool pool' rest : List Process}
  {m : Machine}

theorem perm {ctx : Context} (h : Ensemble g ctx ends heap pool) (hperm : pool.Perm pool') :
    Ensemble g ctx ends heap pool' := by
  obtain ⟨R, lone, h⟩ := h
  have hmem (p : Process) : p ∈ pool' → p ∈ pool := hperm.mem_iff.2
  exact ⟨R, lone, (hperm.map _).nodup_iff.1 h.nodup, fun p hp => h.mirror p (hmem p hp),
    fun p hp => h.process p (hmem p hp), fun p hp => h.trail p (hmem p hp),
    fun p hp q hq => h.apart p (hmem p hp) q (hmem q hq)⟩

theorem tail {ctx : Context} {p : Process} (h : Ensemble g ctx ends heap (p :: rest)) :
    Ensemble g ctx ends heap rest := by
  obtain ⟨R, lone, h⟩ := h
  exact ⟨R, lone, (List.nodup_cons.1 h.nodup).2, fun p hp => h.mirror p (.tail _ hp),
    fun p hp => h.process p (.tail _ hp), fun p hp => h.trail p (.tail _ hp),
    fun p hp q hq => h.apart p (.tail _ hp) q (.tail _ hq)⟩

/-- A process that has ended has come to the end that was given for it. -/
theorem outcome_match {ctx : Context} (h : Ensemble g ctx ends heap pool) {p : Process} (hp : p ∈ pool)
    {outcome : Outcome} (ho : p.outcome = some outcome) : (ends p.id).Match outcome := by
  obtain ⟨R, lone, h⟩ := h
  have hmatch := (h.process p hp).outcome
  rw [ho] at hmatch
  generalize hlone : (lone p.id).process.outcome = outcome₀ at hmatch
  cases hmatch with
  | some hmatch => exact (h.trail p hp).eq_of_ended hlone ▸ hmatch

/-- One process goes on with an instruction, and so does the process that runs alone. -/
theorem advance (h : Ensemble g (g.context maxFrames) ends m.heap (m.process :: rest))
    (hgoing : m.process.isFinished = false) (hclear : m.heap.Clear g.roots)
    (hroom : m.runsOut (g.context maxFrames) = false)
    (hown : ∀ id, m.written? (g.context maxFrames) = some id → ¬g.Shares m.heap id) :
    Ensemble g (g.context maxFrames) ends (m.advance (g.context maxFrames)).heap
      ((m.advance (g.context maxFrames)).process :: rest) := by
  obtain ⟨R, lone, h⟩ := h
  have hmem : m.process ∈ m.process :: rest := List.mem_cons_self
  have hmirror := h.mirror _ hmem
  have hprocess := h.process _ hmem
  obtain ⟨m₀, hheap₀, hprocess₀, hclear₀, hroom₀, htrail⟩ :=
    (h.trail _ hmem).of_going (hprocess.isFinished_eq ▸ hgoing)
  rw [← hheap₀] at hmirror
  rw [← hprocess₀] at hprocess
  have hT : m₀.Twin (g.setting 0 m.process.id) (R m.process.id) m := ⟨hmirror, hprocess⟩
  obtain ⟨R', hp, hT'⟩ := hT.advance hclear₀ hclear hown hroom₀ hroom
  have hid : (m.advance (g.context maxFrames)).process.id = m.process.id := hT'.process.shared_eq
  refine ⟨_, _, h.replace hid hT'.heap hT'.process htrail fun q hq => ?_⟩
  exact (h.mirror q (.tail _ hq)).disturb hp hT'.heap.stocks (fun x y hxy => (hmirror.own x y hxy).2)
    (h.apart _ hmem q (.tail _ hq) (h.id_ne hq).symm)

/-- Where there is a process, the heap is stocked. -/
theorem stocks {ctx : Context} {p : Process} (h : Ensemble g ctx ends heap (p :: rest)) : g.Stocks heap := by
  obtain ⟨R, lone, h⟩ := h
  exact (h.mirror p List.mem_cons_self).stocks

end Ensemble

theorem Ground.Stocks.not_issued {g : Ground} {heap heap' : Heap} (hs : g.Stocks heap) (hs' : g.Stocks heap')
    {id : ObjectId} (hdead : heap.isLive id = false) (hlive : heap'.isLive id = true) : ¬g.base.Issued id := by
  intro hissued
  rw [Heap.isLive, hs'.kept id hissued, ← hs.kept id hissued, ← Heap.isLive, hdead] at hlive
  cases hlive

namespace Machine

variable {g : Ground} {maxFrames : Nat} {ends : ProcessId → Outcome} {rest : List Process} {policy : Policy}
  {others : List Frame} {m : Machine} {earlier : List Machine}

/-- What was made at one of the moments was not there at the start. -/
def Born (g : Ground) (ctx : Context) (earlier : List Machine) : Prop :=
  ∀ k ∈ earlier, ∀ id, k.heap.isLive id = false → (k.advance ctx).heap.isLive id = true → ¬g.base.Issued id

theorem Owns.not_shares {ctx : Context} {id : ObjectId} (h : m.Owns ctx earlier id) (hborn : Born g ctx earlier) :
    ¬g.Shares m.heap id := by
  obtain ⟨hstrings, k, hk, -, hdead, hlive⟩ := h
  rintro (hbase | ⟨s, hs⟩)
  · exact hborn k hk id hdead hlive hbase
  · obtain ⟨entry, hentry, heq⟩ := List.mem_map.1 (Heap.mem_of_lookup hs)
    exact hstrings entry hentry heq

/-- One process goes on for a while. -/
theorem ensemble_run (h : Ensemble g (g.context maxFrames) ends m.heap (m.process :: rest))
    (ht : m.Trusty policy g.roots others) (hborn : Born g (g.context maxFrames) earlier) {budget : Nat}
    (hroom : ∀ k ∈ m.moments (g.context maxFrames) budget, k.runsOut (g.context maxFrames) = false)
    (hown : OwnWrites (g.context maxFrames) earlier (m.moments (g.context maxFrames) budget)) :
    Ensemble g (g.context maxFrames) ends (m.run (g.context maxFrames) budget).heap
        ((m.run (g.context maxFrames) budget).process :: rest) ∧
      Born g (g.context maxFrames) ((m.moments (g.context maxFrames) budget).reverse ++ earlier) := by
  induction budget generalizing m earlier with
  | zero => exact ⟨h, hborn⟩
  | succ budget ih =>
    cases hgoing : m.process.isFinished with
    | true =>
      rw [run_of_isFinished _ hgoing, moments, if_pos hgoing]
      exact ⟨h, hborn⟩
    | false =>
      simp only [moments, hgoing, Bool.false_eq_true, if_false, List.mem_cons, forall_eq_or_imp] at hroom hown
      have hadvance := h.advance hgoing ht.clear hroom.1 fun id hid => (hown.1 id hid).not_shares hborn
      have hborn' : Born g (g.context maxFrames) (m :: earlier) := by
        intro k hk id hdead hlive
        rcases List.mem_cons.1 hk with rfl | hk
        · exact h.stocks.not_issued hadvance.stocks hdead hlive
        · exact hborn k hk id hdead hlive
      rw [run_succ _ hgoing]
      obtain ⟨hrun, hborn''⟩ := ih hadvance (ht.advance (g.context maxFrames)) hborn' hroom.2 hown.2
      refine ⟨hrun, ?_⟩
      rw [moments, if_neg (by simp [hgoing])]
      simpa using hborn''

end Machine

/-- Of the first `count` processes each is in the pool and matched, or has ended as it does alone. -/
structure Scheduler.Harmony (g : Ground) (maxFrames : Nat) (ends : ProcessId → Outcome) (count : Nat) (s : Scheduler) :
    Prop where
  context_eq : s.context = g.context maxFrames
  ensemble : Ensemble g (g.context maxFrames) ends s.heap s.pool
  recorded : ∀ p ∈ s.pool, s.outcomes[p.id]? = some p.outcome
  ended : ∀ i < count, (∃ p ∈ s.pool, p.id = i) ∨
    ∃ outcome, s.outcomes[i]? = some (some outcome) ∧ (ends i).Match outcome

namespace Scheduler

open Machine

variable {g : Ground} {maxFrames count : Nat} {ends : ProcessId → Outcome} {s : Scheduler} {process : Process}
  {rest : List Process}

theorem Harmony.retire (h : s.Harmony g maxFrames ends count) (hpool : s.pool = process :: rest)
    (hend : process.isFinished = true) (journal : List Event) :
    Harmony g maxFrames ends count { s with pool := rest, journal } := by
  have hensemble := h.ensemble
  have hmem : process ∈ s.pool := hpool ▸ List.mem_cons_self
  obtain ⟨outcome, houtcome⟩ := Option.isSome_iff_exists.1 hend
  rw [hpool] at hensemble
  refine ⟨h.context_eq, hensemble.tail, fun p hp => h.recorded p (hpool ▸ .tail _ hp), fun i hi => ?_⟩
  rcases h.ended i hi with ⟨p, hp, rfl⟩ | hended
  · rcases List.mem_cons.1 (hpool ▸ hp) with rfl | hp
    · exact .inr ⟨outcome, houtcome ▸ h.recorded p hmem, h.ensemble.outcome_match hmem houtcome⟩
    · exact .inl ⟨p, hp, rfl⟩
  · exact .inr hended

theorem Harmony.turn (h : s.Harmony g maxFrames ends count) (hpool : s.pool = process :: rest) {m : Machine}
    (hm : Ensemble g (g.context maxFrames) ends m.heap (m.process :: rest)) (hid : m.process.id = process.id)
    (journal : List Event) :
    Harmony g maxFrames ends count
      { s with
        heap := m.heap
        pool := rest ++ [m.process]
        outcomes := s.outcomes.setIfInBounds m.process.id m.process.outcome
        journal } := by
  have hperm : (m.process :: rest).Perm (rest ++ [m.process]) := (List.perm_append_singleton _ _).symm
  have hensemble := h.ensemble
  have hlt : process.id < s.outcomes.size :=
    (Array.getElem?_eq_some_iff.1 (h.recorded process (hpool ▸ List.mem_cons_self))).1
  rw [hpool] at hensemble
  obtain ⟨R, lone, haccords⟩ := hensemble
  refine ⟨h.context_eq, hm.perm hperm, fun p hp => ?_, fun i hi => ?_⟩
  · rcases List.mem_cons.1 (hperm.mem_iff.2 hp) with rfl | hp
    · simp [hid, hlt]
    · simp only [hid, Array.getElem?_setIfInBounds, (haccords.id_ne hp).symm, if_false]
      exact h.recorded p (hpool ▸ .tail _ hp)
  · by_cases hi' : process.id = i
    · exact .inl ⟨m.process, hperm.mem_iff.1 List.mem_cons_self, hid.trans hi'⟩
    · rcases h.ended i hi with ⟨p, hp, rfl⟩ | hended
      · rcases List.mem_cons.1 (hpool ▸ hp) with rfl | hp
        · exact absurd rfl hi'
        · exact .inl ⟨p, hperm.mem_iff.1 (.tail _ hp), rfl⟩
      · refine .inr ?_
        simpa only [hid, Array.getElem?_setIfInBounds, hi', if_false] using hended

end Scheduler

/-- The processes stay in harmony while they take turns. -/
theorem Session.Sound.harmony {plain : Prop} {w : Session} (hs : w.Sound plain) {g : Ground} {maxFrames count : Nat}
    {ends : ProcessId → Outcome} (h : w.scheduler.Harmony g maxFrames ends count) {earlier : List Machine}
    (hborn : Machine.Born g (g.context maxFrames) earlier) {limit turns : Nat}
    (hroom : ∀ k ∈ w.scheduler.moments limit turns, k.runsOut (g.context maxFrames) = false)
    (hown : Machine.OwnWrites (g.context maxFrames) earlier (w.scheduler.moments limit turns)) :
    (w.scheduler.runTurns limit turns).Harmony g maxFrames ends count := by
  induction turns generalizing w earlier with
  | zero => exact h
  | succ turns ih =>
    cases hpool : w.scheduler.pool with
    | nil =>
      rw [Scheduler.runTurns_of_pool_eq_nil hpool]
      exact h
    | cons process rest =>
      have hsound := hs.run limit
      rw [Scheduler.runTurns_cons hpool]
      rw [Scheduler.moments_cons hpool, h.context_eq] at hroom hown
      rw [Machine.ownWrites_append] at hown
      cases hgoing : process.isFinished with
      | true =>
        rw [Scheduler.runOnce_of_isFinished hpool hgoing] at hsound hroom hown ⊢
        rw [Machine.moments_of_isFinished hgoing] at hown
        exact ih hsound (h.retire hpool hgoing _) hborn (fun k hk => hroom k (List.mem_append_right _ hk)) hown.2
      | false =>
        have htrusty := hs.trusty (.of_eq hpool)
        obtain ⟨journal, hturn⟩ := Scheduler.runOnce_of_going limit hpool hgoing
        have hensemble := h.ensemble
        rw [hpool] at hensemble
        rw [h.context_eq] at htrusty hturn
        have hid := (Machine.follows_run (w.scheduler.budget limit) htrusty.sound).id_eq
        obtain ⟨hrun, hborn'⟩ := Machine.ensemble_run (m := w.scheduler.machine process) hensemble htrusty hborn
          (fun k hk => hroom k (List.mem_append_left _ hk)) hown.1
        rw [hturn] at hsound hroom hown ⊢
        exact ih hsound (h.turn hpool hrun hid journal) hborn' (fun k hk => hroom k (List.mem_append_right _ hk)) hown.2

/-! ## Runs from the same start -/

/-- The process that a token belongs to. -/
def Payload.owner? : Payload → Option ProcessId
  | .token process _ => some process
  | _ => .none

namespace Scheduler

/-- How a process ended, as it can be seen from outside. -/
def ending (s : Scheduler) (id : ProcessId) : Option (Bool × Option Fault × String) :=
  s.outcomes[id]?.join.map fun outcome => (outcome.isError, outcome.cause?, outcome.display)

theorem ending_eq_some {s : Scheduler} {id : ProcessId} {outcome : Outcome}
    (h : s.outcomes[id]? = some (some outcome)) :
    s.ending id = some (outcome.isError, outcome.cause?, outcome.display) := by
  simp [ending, h]

/-- The same scheduler with turns of another length. -/
def withQuantum (s : Scheduler) (quantum : Nat) : Scheduler := { s with config := { s.config with quantum } }

/-- Adds a process for each of the units, in this order. -/
def addAll (s : Scheduler) (bodies : List Body) : Scheduler := bodies.foldl (fun s body => (s.addProcess body).2) s

/-- The process `id` about to run `body`. -/
def begins (s : Scheduler) (id : ProcessId) (body : Body) : Process :=
  .start id { body with code := body.code.finalize } (.ref s.roots.lobby)

/-- The processes get the next numbers, and nothing else happens. -/
theorem addAll_eq (s : Scheduler) (bodies : List Body) :
    ∃ journal, s.addAll bodies =
      { s with
        pool := s.pool ++ bodies.mapIdx fun i body => s.begins (s.outcomes.size + i) body
        outcomes := s.outcomes ++ Array.replicate bodies.length none
        journal } := by
  induction bodies generalizing s with
  | nil => exact ⟨s.journal, by simp [addAll]⟩
  | cons body bodies ih =>
    obtain ⟨journal, h⟩ := ih (s.addProcess body).2
    have hpool : s.pool ++ [s.begins s.outcomes.size body] ++
          bodies.mapIdx (fun i body => s.begins (s.outcomes.size + 1 + i) body) =
        s.pool ++ (body :: bodies).mapIdx fun i body => s.begins (s.outcomes.size + i) body := by
      simp [List.mapIdx_cons, Nat.add_assoc, Nat.add_comm 1]
    have houtcomes : s.outcomes.push none ++ Array.replicate bodies.length none =
        s.outcomes ++ Array.replicate (bodies.length + 1) none := by
      simp [← Array.toList_inj, List.replicate_succ]
    refine ⟨journal, ?_⟩
    rw [show s.addAll (body :: bodies) = (s.addProcess body).2.addAll bodies from rfl, h, List.length_cons, ← hpool,
      ← houtcomes]
    simp only [addProcess, note, Array.size_push]
    rfl

end Scheduler

namespace Session

variable {plain : Prop} {w : Session}

theorem Sound.withQuantum (hs : w.Sound plain) (quantum : Nat) :
    Sound plain { w with scheduler := w.scheduler.withQuantum quantum } :=
  hs.follows rfl rfl hs.heap.follows_self (fun _ => .inl) (fun _ _ => .inl) fun _ => .inl

theorem Sound.addAll (hs : w.Sound plain) (bodies : List Body) :
    Sound plain { w with scheduler := w.scheduler.addAll bodies } := by
  induction bodies generalizing w with
  | nil => exact hs
  | cons body bodies ih => exact ih (hs.add body)

/-- A process that has not begun is matched by itself under another number. -/
theorem Fresh.begins_match (hf : w.Fresh) (hs : w.Sound plain) {body : Body} (hbody : body ∈ w.units)
    (lone shared : ProcessId) :
    Process.Match ((w.ground hs).setting lone shared) (.start w.heap) (w.scheduler.begins lone body)
      (w.scheduler.begins shared body) := by
  have hlobby : Value.Match (.start w.heap) (.ref w.roots.lobby) (.ref w.roots.lobby) :=
    .start (hs.heap.anchor_accepts (by simp [Roots.ids])).issued
  have hwritten := (hf.written body hbody).finalize
  refine ⟨rfl, rfl, .cons ⟨rfl, hwritten, rfl, .nil, hlobby, hlobby, .none, .call, .nil, rfl⟩ .nil, .nil, .none⟩

/-- A bound on the turns that the processes need. -/
theorem Sound.exists_bound (hs : w.Sound plain) :
    ∃ bound, ∀ limit, bound ≤ limit → (w.scheduler.interpret limit).pool = [] := by
  obtain ⟨size, hbounded⟩ := hs.bounded
  refine ⟨w.scheduler.rank size, fun limit hlimit => ?_⟩
  exact (hbounded.runTurns_eq hlimit hlimit hlimit hlimit).1

/-- Processes for these units, about to begin with turns of this length. -/
def launch (w : Session) (quantum : Nat) (bodies : List Body) : Scheduler :=
  (w.scheduler.withQuantum quantum).addAll bodies

theorem Sound.launch (hs : w.Sound plain) (quantum : Nat) (bodies : List Body) :
    Sound plain { w with scheduler := w.launch quantum bodies } :=
  (hs.withQuantum quantum).addAll bodies

/-- In a fresh session the processes are numbered by their place in the list. -/
theorem Fresh.launch_eq (hf : w.Fresh) (hfresh : w.scheduler.outcomes = #[]) (quantum : Nat) (bodies : List Body) :
    ∃ journal, w.launch quantum bodies =
      { w.scheduler.withQuantum quantum with
        pool := bodies.mapIdx w.scheduler.begins
        outcomes := Array.replicate bodies.length none
        journal } := by
  obtain ⟨journal, h⟩ := (w.scheduler.withQuantum quantum).addAll_eq bodies
  refine ⟨journal, ?_⟩
  rw [launch, h]
  simp only [Scheduler.withQuantum, hf.pool_eq, hfresh, Array.size_empty, Nat.zero_add, List.nil_append,
    Array.empty_append]
  rfl

/-- The only process that was added comes to its end. -/
theorem Fresh.trail (hf : w.Fresh) (hs : w.Sound plain) (hfresh : w.scheduler.outcomes = #[]) {quantum : Nat}
    {body : Body} {limit : Nat} (hroom : (w.launch quantum [body]).HasRoom limit)
    (hend : ((w.launch quantum [body]).interpret limit).pool = []) :
    ∃ outcome, ((w.launch quantum [body]).interpret limit).outcomes[0]? = some (some outcome) ∧
      Machine.Trail w.scheduler.context w.heap (w.scheduler.begins 0 body) outcome := by
  have hsound := hs.launch quantum [body]
  obtain ⟨journal, hlaunch⟩ := hf.launch_eq hfresh quantum [body]
  rw [hlaunch] at hsound hroom hend ⊢
  exact hsound.trail rfl rfl hroom hend

/-- There is a bound on the turns that several processes need, and that each of them needs alone. -/
theorem Sound.exists_launch_bound (hs : w.Sound plain) (quantum quantum' : Nat) (bodies : List Body) :
    ∃ bound, ∀ limit, bound ≤ limit → ((w.launch quantum bodies).interpret limit).pool = [] ∧
      ∀ body ∈ bodies, ((w.launch quantum' [body]).interpret limit).pool = [] := by
  obtain ⟨bound, hbound⟩ := (hs.launch quantum bodies).exists_bound
  choose alone halone using fun body => (hs.launch quantum' [body]).exists_bound
  refine ⟨bound + (bodies.map alone).sum, fun limit hlimit => ⟨hbound limit (by omega), fun body hbody => ?_⟩⟩
  have hle : alone body ≤ (bodies.map alone).sum := List.le_sum_of_mem (List.mem_map_of_mem hbody)
  exact halone body limit (by omega)

/-- Before the first instruction all processes are in harmony, unless a token of the user stands for a stack of
one of them. -/
theorem Fresh.harmony (hf : w.Fresh) (hs : w.Sound plain) (hfresh : w.scheduler.outcomes = #[]) {bodies : List Body}
    (hbodies : ∀ body ∈ bodies, body ∈ w.units)
    (htokens : ∀ object ∈ w.heap.objects, ∀ owner ∈ object.payload.owner?, bodies.length ≤ owner)
    (quantum : Nat) {ends : ProcessId → Outcome}
    (htrail : ∀ i body, bodies[i]? = some body →
      Machine.Trail w.scheduler.context w.heap (w.scheduler.begins 0 body) (ends i)) :
    (w.launch quantum bodies).Harmony (w.ground hs) w.scheduler.config.maxFrames ends bodies.length := by
  obtain ⟨journal, hlaunch⟩ := hf.launch_eq hfresh quantum bodies
  have hpool (p : Process) (hp : p ∈ bodies.mapIdx w.scheduler.begins) :
      ∃ i body, bodies[i]? = some body ∧ p = w.scheduler.begins i body := by
    obtain ⟨i, hi⟩ := List.mem_iff_getElem?.1 hp
    rw [List.getElem?_mapIdx, Option.map_eq_some_iff] at hi
    obtain ⟨body, hbody, rfl⟩ := hi
    exact ⟨i, body, hbody, rfl⟩
  have hlt {i : Nat} {body : Body} (hbody : bodies[i]? = some body) : i < bodies.length :=
    (List.getElem?_eq_some_iff.1 hbody).1
  obtain ⟨lone, hlone⟩ : ∃ lone : ProcessId → Process, ∀ i body, bodies[i]? = some body →
      lone i = w.scheduler.begins 0 body :=
    ⟨fun i => (bodies[i]?.map (w.scheduler.begins 0)).getD { id := 0, frames := [] }, fun i body h => by simp [h]⟩
  rw [hlaunch]
  refine ⟨rfl, ⟨fun _ => .start w.heap, fun i => w.scheduler.machine (lone i), ?_, ?_, ?_, ?_, ?_⟩, ?_, ?_⟩
  · have hids : (bodies.mapIdx w.scheduler.begins).map (·.id) = List.range bodies.length := by
      refine List.ext_getElem (by simp) fun i hi hi' => ?_
      simp [Scheduler.begins, Process.start]
    rw [hids]
    exact List.nodup_range
  · intro p hp
    obtain ⟨i, body, hbody, rfl⟩ := hpool p hp
    refine hf.mirror hs fun id object owner index hget hpayload => ?_
    have hle := htokens object (Heap.mem_objects_iff.2 ⟨id, hget⟩) owner (by simp [hpayload, Payload.owner?])
    have hi := hlt hbody
    exact ⟨by omega, (Nat.lt_of_lt_of_le hi hle).ne'⟩
  · intro p hp
    obtain ⟨i, body, hbody, rfl⟩ := hpool p hp
    have hmatch := hf.begins_match hs (hbodies body (List.mem_of_getElem? hbody)) 0 i
    exact (hlone i body hbody).symm ▸ hmatch
  · intro p hp
    obtain ⟨i, body, hbody, rfl⟩ := hpool p hp
    exact (hlone i body hbody).symm ▸ htrail i body hbody
  · exact fun _ _ _ _ _ => nofun
  · intro p hp
    obtain ⟨i, body, hbody, rfl⟩ := hpool p hp
    simp [Scheduler.begins, Process.start, hlt hbody]
  · intro i hi
    refine .inl ⟨w.scheduler.begins i (bodies.get ⟨i, hi⟩), ?_, rfl⟩
    exact List.mem_iff_getElem?.2 ⟨i, by simp [hi]⟩

/-- Together and alone the processes come to their end with room to spare, and together each of them only writes to
objects of its own. -/
structure Independent (w : Session) (bodies : List Body) (quantum quantum' limit limit' : Nat) : Prop where
  together_ends : ((w.launch quantum bodies).interpret limit).pool = []
  together_hasRoom : (w.launch quantum bodies).HasRoom limit
  alone_ends : ∀ body ∈ bodies, ((w.launch quantum' [body]).interpret limit').pool = []
  alone_hasRoom : ∀ body ∈ bodies, (w.launch quantum' [body]).HasRoom limit'
  ownWrites : (w.launch quantum bodies).OwnWrites limit

instance {w : Session} {bodies : List Body} {quantum quantum' limit limit' : Nat} :
    Decidable (w.Independent bodies quantum quantum' limit limit') :=
  decidable_of_iff
    (((w.launch quantum bodies).interpret limit).pool = [] ∧ (w.launch quantum bodies).HasRoom limit ∧
      (∀ body ∈ bodies, ((w.launch quantum' [body]).interpret limit').pool = []) ∧
      (∀ body ∈ bodies, (w.launch quantum' [body]).HasRoom limit') ∧ (w.launch quantum bodies).OwnWrites limit)
    ⟨fun ⟨hend, hroom, hends, hrooms, hown⟩ => ⟨hend, hroom, hends, hrooms, hown⟩,
      fun ⟨hend, hroom, hends, hrooms, hown⟩ => ⟨hend, hroom, hends, hrooms, hown⟩⟩

/-- Independent processes end as each of them ends alone, whatever the quanta are and in whatever order they were
added. The user may have made any globals, except tokens for one of the processes. -/
theorem ending_eq_alone (hw : w.Reachable plain) (hfresh : w.scheduler.outcomes = #[]) {bodies : List Body}
    (hbodies : ∀ body ∈ bodies, body ∈ w.units)
    (htokens : ∀ object ∈ w.heap.objects, ∀ owner ∈ object.payload.owner?, bodies.length ≤ owner)
    (quantum quantum' : Nat) :
    (∃ bound, ∀ limit, bound ≤ limit → ((w.launch quantum bodies).interpret limit).pool = [] ∧
      ∀ body ∈ bodies, ((w.launch quantum' [body]).interpret limit).pool = []) ∧
    ∀ limit limit', w.Independent bodies quantum quantum' limit limit' →
      ∀ i body, bodies[i]? = some body → ∃ ending,
        ((w.launch quantum bodies).interpret limit).ending i = some ending ∧
        ((w.launch quantum' [body]).interpret limit').ending 0 = some ending := by
  have hf := hw.fresh hfresh
  have hs := hw.sound
  refine ⟨hs.exists_launch_bound quantum quantum' bodies, fun limit limit' h => ?_⟩
  have halone (i : Nat) : ∃ outcome, ∀ body, bodies[i]? = some body →
      ((w.launch quantum' [body]).interpret limit').outcomes[0]? = some (some outcome) ∧
      Machine.Trail w.scheduler.context w.heap (w.scheduler.begins 0 body) outcome := by
    cases hbody : bodies[i]? with
    | none => exact ⟨.value (.ref w.roots.nil) "", nofun⟩
    | some body =>
      have hmem := List.mem_of_getElem? hbody
      obtain ⟨outcome, houtcome, htrail⟩ := hf.trail hs hfresh (h.alone_hasRoom body hmem) (h.alone_ends body hmem)
      refine ⟨outcome, fun body' heq => ?_⟩
      cases heq
      exact ⟨houtcome, htrail⟩
  choose ends hends using halone
  have hstart := hf.harmony hs hfresh hbodies htokens quantum fun i body hbody => (hends i body hbody).2
  have hroom := h.together_hasRoom
  have hown := h.ownWrites
  unfold Scheduler.HasRoom at hroom
  unfold Scheduler.OwnWrites at hown
  rw [hstart.context_eq] at hroom hown
  have hharmony := (hs.launch quantum bodies).harmony hstart (by simp [Machine.Born]) hroom hown
  intro i body hbody
  rcases hharmony.ended i (List.getElem?_eq_some_iff.1 hbody).1 with ⟨p, hp, -⟩ | ⟨outcome, houtcome, hmatch⟩
  · have hnil : p ∈ ([] : List Process) := h.together_ends ▸ hp
    cases hnil
  · refine ⟨_, Scheduler.ending_eq_some houtcome, ?_⟩
    rw [Scheduler.ending_eq_some (hends i body hbody).1, hmatch.isError_eq, hmatch.cause?_eq, hmatch.display_eq]

/-- Any known value can be made known to all programs. -/
theorem Reachable.global (hw : w.Reachable False) (name : String) {value : Value} (hvalue : value ∈ w.known) :
    (w.perform (.addSlot w.roots.lobby name value)).Reachable False := by
  have hlobby : w.heap.isLive w.roots.lobby = true :=
    ((hw.sound.heap.anchor_accepts (by simp [Roots.ids])).lasts _ rfl).1
  refine hw.step (.request _ ?_)
  constructor <;> simp [Request.target?, Request.named, Request.stored, hlobby, hvalue]

/-- Makes up a token for the first stack of the process `owner`, and makes it known to all programs as `tok`. -/
def forge (w : Session) (owner : ProcessId) : Session :=
  let copied := { w with known := .ref w.roots.nil :: w.known }.perform
    (.cloneWithPayload w.roots.nil (.token owner 0))
  match copied.known with
  | [] => copied
  | value :: _ => copied.perform (.addSlot copied.roots.lobby "tok" value)

theorem Reachable.forge (hw : w.Reachable False) (owner : ProcessId) : (w.forge owner).Reachable False := by
  have hlearn : Reachable False { w with known := .ref w.roots.nil :: w.known } :=
    .step hw (.learn (.root (by simp [Roots.ids])))
  have hallows : Allows False { w with known := .ref w.roots.nil :: w.known }
      (.cloneWithPayload w.roots.nil (.token owner 0)) := by
    constructor <;> simp [Request.target?, Request.named, Request.stored, Payload.receiver?]
  have hcopied := hlearn.step (.request _ hallows)
  unfold Session.forge
  simp only
  split
  · exact hcopied
  · rename_i value known hknown
    exact hcopied.global "tok" (hknown ▸ List.mem_cons_self)

/-- A session with these programs and with a token that the user made up. -/
def staged (owner : ProcessId) (programs : List (List Line)) : Option Session :=
  match Scheduler.create {} 100, programs.mapM Code.compile with
  | .ok s, .ok codes =>
    let load code (w : Session) :=
      { w with scheduler := (w.scheduler.load code).2, units := (w.scheduler.load code).1 :: w.units }
    some (codes.foldr load ({ scheduler := s : Session }.forge owner))
  | _, _ => none

theorem reachable_of_staged {owner : ProcessId} {programs : List (List Line)} (h : staged owner programs = some w) :
    w.Reachable False := by
  unfold staged at h
  split at h
  · rename_i s codes hs hcodes
    simp only [Option.some.injEq] at h
    subst h
    clear hcodes
    induction codes with
    | nil => exact (Reachable.start hs).forge owner
    | cons code codes ih => exact .step ih (.load code)
  · cases h

/-- The first process gives an object of its own a slot. The second handles its error with the global `tok`, as if
that were the token it is given. -/
def impostors : List (List Line) :=
  let writer := [Line.push (.object .plain [] none), .push (.text "x"), .push (.int 1), .addSlot .normal]
    ++ Demo.send "x" .unary 0
  let handler := Demo.interpreter ++ [Line.pushSelf] ++ Demo.send "tok" .unary 0 ++ [Line.push (.int 42)]
    ++ Demo.send "restoreProcess:With:" .keyword 2
  let raiser := Demo.interpreter ++ [Line.push (.object .block ["msg", "err"] (some handler))]
    ++ Demo.send "setErrorHandler:" .keyword 1 ++ [Line.pop] ++ Demo.interpreterCall "error:" "Test"
  [writer, raiser]

/-- A token for a third process is of no use to the two, one of which writes to its own object. -/
theorem ending_eq_alone_staged :
    ∃ w : Session, w.Reachable False ∧ w.scheduler.outcomes = #[] ∧ w.units.length = 2 ∧
      (∀ object ∈ w.heap.objects, ∀ owner ∈ object.payload.owner?, w.units.length ≤ owner) ∧
      (∃ m ∈ (w.launch 2 w.units).moments 24 24, (m.written? w.scheduler.context).isSome) ∧
      w.Independent w.units 2 0 24 24 ∧
      ∀ i body, w.units[i]? = some body → ∃ ending,
        ((w.launch 2 w.units).interpret 24).ending i = some ending ∧
        ((w.launch 0 [body]).interpret 24).ending 0 = some ending := by
  have hstaged : ((staged 2 impostors).any fun w =>
      decide (w.scheduler.outcomes = #[] ∧ w.units.length = 2 ∧
        (∀ object ∈ w.heap.objects, ∀ owner ∈ object.payload.owner?, w.units.length ≤ owner) ∧
        (∃ m ∈ (w.launch 2 w.units).moments 24 24, (m.written? w.scheduler.context).isSome) ∧
        w.Independent w.units 2 0 24 24)) = true := by
    decide +kernel
  obtain ⟨w, hw, hcheck⟩ := (Option.any_eq_true _ _).1 hstaged
  obtain ⟨hfresh, hlength, htokens, hwrites, hindependent⟩ := of_decide_eq_true hcheck
  have hreachable : w.Reachable False := reachable_of_staged hw
  exact ⟨w, hreachable, hfresh, hlength, htokens, hwrites, hindependent,
    (ending_eq_alone hreachable hfresh (fun _ h => h) htokens 2 0).2 24 24 hindependent⟩

/-- With a token for the second process that process ends otherwise than it ends alone, where it is the first. -/
theorem ending_ne_alone_staged :
    ∃ w : Session, w.Reachable False ∧ w.scheduler.outcomes = #[] ∧ w.Independent w.units 2 0 24 24 ∧
      ∃ body, w.units[1]? = some body ∧
        ((w.launch 2 w.units).interpret 24).ending 1 ≠ ((w.launch 0 [body]).interpret 24).ending 0 := by
  have hstaged : ((staged 1 impostors).any fun w =>
      decide (w.scheduler.outcomes = #[] ∧ w.Independent w.units 2 0 24 24 ∧
        ∃ body ∈ w.units[1]?,
          ((w.launch 2 w.units).interpret 24).ending 1 ≠ ((w.launch 0 [body]).interpret 24).ending 0)) = true := by
    decide +kernel
  obtain ⟨w, hw, hcheck⟩ := (Option.any_eq_true _ _).1 hstaged
  obtain ⟨hfresh, hindependent, body, hbody, hne⟩ := of_decide_eq_true hcheck
  exact ⟨w, reachable_of_staged hw, hfresh, hindependent, body, hbody, hne⟩

end Session

end ProtoVm
