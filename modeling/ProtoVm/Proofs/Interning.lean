import ProtoVm.Proofs.Capture

/-!
# Interned strings

The table of strings lists one object for each text, and this object keeps its text whatever is done to its slots. So
all users and programs that ask for a text get the same object at all times, and a message that a program names by a
literal is looked up under this text.
-/

namespace ProtoVm

/-! ## The table -/

namespace Heap

variable {roots : Roots} {heap heap' : Heap} {t u : String} {id : ObjectId} {value : Value}

/-- Every object in the table has the text under which it is listed, as long as it is there. -/
structure Labelled (heap : Heap) : Prop where
  tidy : heap.Tidy
  issued : ∀ t id, heap.strings.lookup t = some id → heap.Issued id
  payload : ∀ t id object, heap.strings.lookup t = some id → heap.get? id = some object → object.payload = .text t

theorem Labelled.text? (h : heap.Labelled) (hlisted : heap.strings.lookup t = some id) (hlive : heap.isLive id = true) :
    heap.text? (.ref id) = some t := by
  obtain ⟨object, hget⟩ := isLive_iff.1 hlive
  exact text?_of_payload (object_of_get? hget ▸ h.payload t id object hlisted hget)

theorem labelled_empty (limit : Nat) : (Heap.empty limit).Labelled :=
  ⟨(coherent_empty limit).tidy, fun _ _ h => (nomatch h), fun _ _ _ h => (nomatch h)⟩

/-- The text of an object is settled. -/
theorem Labelled.deed {copies : List Object} (h : heap.Labelled) (hdeed : Deed (fun _ => True) copies heap heap')
    (hstrings : heap'.strings = heap.strings) : heap'.Labelled := by
  refine ⟨hdeed.tidy h.tidy, fun t id hlisted => ?_, fun t id object' hlisted hget => ?_⟩
  · exact hdeed.issued h.tidy (h.issued t id (hstrings ▸ hlisted))
  · rw [hstrings] at hlisted
    obtain ⟨object, hobject, hkept⟩ := Deeds.settled (.single hdeed) h.tidy (h.issued t id hlisted) hget
    exact hkept.payload_eq.trans (h.payload t id object hlisted hobject)

theorem strings_allocate {object : Object} (hok : allocate object heap = .ok id heap') :
    heap'.strings = heap.strings := by
  unfold allocate at hok
  split at hok
  · cases hok
    rfl
  · split at hok <;> cases hok
    rfl

theorem strings_update (heap : Heap) (id : ObjectId) (edit : Object → Object) :
    (heap.update id edit).strings = heap.strings := by
  unfold update
  split <;> rfl

/-- The table stays as it is, and right if it is right. -/
structure SameTable (heap heap' : Heap) : Prop where
  strings_eq : heap'.strings = heap.strings
  labelled : heap.Labelled → heap'.Labelled

theorem sameTable_of_deed (copies : List Object) (hdeed : Deed (fun _ => True) copies heap heap')
    (hstrings : heap'.strings = heap.strings) : heap.SameTable heap' :=
  ⟨hstrings, fun h => h.deed hdeed hstrings⟩

/-- Nothing but the listing of a text changes the table. -/
def RunRule.table (copies : List Object) : RunRule where
  Holds := SameTable
  faults _ := True
  refl _ := ⟨rfl, fun h => h⟩
  trans h h' := ⟨h'.strings_eq.trans h.strings_eq, h'.labelled ∘ h.labelled⟩
  copies := copies
  assigns _ := True
  edits _ := True
  bodies _ := True
  lists := False
  operational _ := trivial
  make h hok := sameTable_of_deed copies (.act (.make h hok)) (strings_allocate hok)
  withdraw _ hok := sameTable_of_deed copies (.act (.withdraw hok)) ((strings_release _ _).trans (strings_allocate hok))
  assign _ heap _ _ := sameTable_of_deed copies (.act (.assign _ _ _)) (strings_update heap _ _)
  edit _ heap _ := sameTable_of_deed copies (.act (.edit _ _)) (strings_update heap _ _)
  list := False.elim
  aside hcells hfree hlimit _ hunit hstrings :=
    sameTable_of_deed copies (.act (.aside hcells hfree hlimit hunit)) hstrings
  release heap id := sameTable_of_deed copies (.release id) (strings_release heap id)
  anyFault _ := trivial
  anyBody _ := trivial

/-- What is listed stays listed, and the table stays right. -/
structure Pools (heap heap' : Heap) : Prop where
  kept : ∀ t id, heap.strings.lookup t = some id → heap'.strings.lookup t = some id
  labelled : heap.Labelled → heap'.Labelled

theorem Pools.refl (heap : Heap) : heap.Pools heap := ⟨fun _ _ h => h, id⟩

theorem Pools.trans {heap'' : Heap} (h : heap.Pools heap') (h' : heap'.Pools heap'') : heap.Pools heap'' :=
  ⟨fun t id hlisted => h'.kept t id (h.kept t id hlisted), h'.labelled ∘ h.labelled⟩

theorem SameTable.pools (h : heap.SameTable heap') : heap.Pools heap' :=
  ⟨fun _ _ hlisted => h.strings_eq ▸ hlisted, h.labelled⟩

/-! ## One object for a text -/

theorem intern_of_none (hnone : heap.strings.lookup t = none) :
    roots.intern t heap =
      match allocate { heap.object roots.stringPrototype with payload := .text t } heap with
      | .ok id heap' => .ok (.ref id) { heap' with strings := (t, id) :: heap'.strings }
      | .error fault heap' => .error fault heap' := by
  unfold Roots.intern
  rw [get_bind, hnone]
  dsimp only
  cases hmade : allocate { heap.object roots.stringPrototype with payload := .text t } heap with
  | ok id heap' => exact bind_of_ok (x := cloneWithPayload roots.stringPrototype (.text t)) hmade
  | error fault heap' => exact bind_of_error (x := cloneWithPayload roots.stringPrototype (.text t)) hmade

theorem intern_error {fault : Fault} (h : roots.intern t heap = .error fault heap') : heap' = heap := by
  cases hlisted : heap.strings.lookup t with
  | some id =>
    rw [intern_of_some hlisted] at h
    cases h
  | none =>
    rw [intern_of_none hlisted] at h
    split at h
    · cases h
    · rename_i herror
      cases h
      exact (allocate_error herror).1

/-- The table with one text more. -/
theorem Labelled.list {object : Object} (h : heap.Labelled) (hadds : heap.Adds object id heap')
    (hpayload : object.payload = .text t) : Labelled { heap' with strings := (t, id) :: heap'.strings } := by
  have hlookup {u : String} {other : ObjectId} (hlisted : List.lookup u ((t, id) :: heap'.strings) = some other) :
      u = t ∧ other = id ∨ heap.strings.lookup u = some other := by
    by_cases heq : u = t
    · rw [heq, List.lookup_cons_self] at hlisted
      exact .inl ⟨heq, (Option.some.inj hlisted).symm⟩
    · rw [Ground.lookup_cons_ne heq, hadds.strings_eq] at hlisted
      exact .inr hlisted
  refine ⟨⟨hadds.tidy.free_nodup, hadds.tidy.free_empty, hadds.tidy.size_le⟩, fun u other hlisted => ?_,
    fun u other found hlisted hget => ?_⟩
  · rcases hlookup hlisted with ⟨-, rfl⟩ | hlisted
    · exact .of_get? hadds.get?_self
    · exact hadds.issued other (h.issued u other hlisted)
  · change heap'.get? other = some found at hget
    rcases hlookup hlisted with ⟨rfl, rfl⟩ | hlisted
    · rw [hadds.get?_self] at hget
      exact Option.some.inj hget ▸ hpayload
    · exact h.payload u other found hlisted (hadds.kept (h.issued u other hlisted) ▸ hget)

/-- A text that is listed has its object, and any other text gets one that is new. -/
theorem intern_ok (h : roots.intern t heap = .ok value heap') :
    ∃ id, value = .ref id ∧ heap'.strings.lookup t = some id ∧ heap.Pools heap' ∧
      (heap.strings.lookup t = some id ∨ heap.strings.lookup t = none ∧ (heap.Tidy → ¬heap.Issued id)) := by
  cases hlisted : heap.strings.lookup t with
  | some id =>
    rw [intern_of_some hlisted] at h
    cases h
    exact ⟨id, rfl, hlisted, .refl heap, .inl rfl⟩
  | none =>
    rw [intern_of_none hlisted] at h
    split at h
    · rename_i id middle hmade
      cases h
      have hstrings : middle.strings = heap.strings := strings_allocate hmade
      refine ⟨id, rfl, List.lookup_cons_self, ⟨fun u other hother => ?_, fun hlabelled => ?_⟩,
        .inr ⟨rfl, fun tidy => (allocate_adds tidy hmade).unissued⟩⟩
      · have hne : u ≠ t := by
          rintro rfl
          rw [hlisted] at hother
          cases hother
        show List.lookup u ((t, id) :: middle.strings) = some other
        rw [Ground.lookup_cons_ne hne, hstrings, hother]
      · exact hlabelled.list (allocate_adds hlabelled.tidy hmade) rfl
    · cases h

/-- Different texts have different objects, the one that is asked for and any that is listed and live. -/
theorem Labelled.intern_eq_iff (h : heap.Labelled) (hlisted : heap.strings.lookup t = some id)
    (hlive : heap.isLive id = true) (hok : roots.intern u heap = .ok value heap') : value = .ref id ↔ u = t := by
  obtain ⟨other, rfl, hother, -, hold | ⟨hnone, hnew⟩⟩ := intern_ok hok
  · refine ⟨fun heq => ?_, fun heq => ?_⟩
    · cases heq
      obtain ⟨object, hget⟩ := isLive_iff.1 hlive
      have htext := (h.payload u id object hold hget).symm.trans (h.payload t id object hlisted hget)
      exact Payload.text.inj htext
    · rw [heq, hlisted] at hold
      rw [Option.some.inj hold]
  · refine ⟨fun heq => ?_, fun heq => ?_⟩
    · cases heq
      exact absurd (h.issued t id hlisted) (hnew h.tidy)
    · rw [heq, hlisted] at hnone
      cases hnone

end Heap

/-! ## Instructions -/

namespace Exec

variable {m : Machine} {top : Frame} {callers : List Frame}

/-- The text with an index, if the code has one there. -/
theorem literal_text_eq (ctx : Context) (hframes : m.process.frames = top :: callers) (index : UInt8) :
    literal ctx .text index m =
      match top.body.code.literals[index.toNat]? with
      | some (.text t) => onHeap (ctx.roots.intern t) m
      | some _ => .error (.literalMismatch .text) m
      | none => .error (.literalOutOfRange index.toNat) m := by
  unfold literal
  refine (bind_of_ok (frame_eq hframes)).trans ?_
  dsimp only
  cases hl : top.body.code.literals[index.toNat]? with
  | none =>
    rw [Code.literal_eq_error_iff.2 ⟨hl, rfl⟩]
    rfl
  | some l =>
    rw [Code.literal_eq_ok_iff.2 hl]
    cases l <;> rfl

end Exec

namespace Machine

variable {ctx : Context} {m k : Machine} {t : String} {value : Value} {heap : Heap}

/-- The text whose object the next instruction pushes. -/
def text? (m : Machine) : Option String :=
  match m.process.frames with
  | [] => none
  | top :: _ =>
    match Instruction.decode top.body.code.bytes top.ip with
    | .ok (.pushLiteral .text index) =>
      match top.body.code.literals[index.toNat]? with
      | some (.text t) => some t
      | _ => none
    | _ => none

theorem text?_eq_some_iff : m.text? = some t ↔ ∃ top callers index, m.process.frames = top :: callers ∧
    Instruction.decode top.body.code.bytes top.ip = .ok (.pushLiteral .text index) ∧
    top.body.code.literals[index.toNat]? = some (.text t) := by
  constructor
  · intro h
    unfold text? at h
    split at h
    · cases h
    · rename_i top callers hframes
      split at h
      · rename_i index hdecode
        split at h
        · rename_i hl
          cases h
          exact ⟨top, callers, index, hframes, hdecode, hl⟩
        · cases h
      · cases h
  · rintro ⟨top, callers, index, hframes, hdecode, hl⟩
    simp only [text?, hframes, hdecode, hl]

/-- A push of a text looks its literal up past the instruction. -/
theorem step_text (ctx : Context) {top : Frame} {callers : List Frame} {index : UInt8}
    (hframes : m.process.frames = top :: callers)
    (hdecode : Instruction.decode top.body.code.bytes top.ip = .ok (.pushLiteral .text index)) :
    ∃ fetched : Machine, fetched.heap = m.heap ∧
      fetched.process.frames = top.past (.pushLiteral .text index) :: callers ∧
      Exec.step ctx m = (Exec.literal ctx .text index >>= Exec.push) fetched := by
  obtain ⟨fetched, hfetch, hheap, -⟩ := fetch_of_reads ⟨top, callers, hframes, hdecode⟩
  refine ⟨fetched, hheap, ?_, ?_⟩
  · rw [(Exec.fetch_past.of_ok hfetch).2.2, Process.past, hframes, List.modifyHead_cons]
  · rw [Exec.step_eq, bind_of_ok hfetch]
    rfl

/-- A push of a text leaves its object on top of the operands. -/
theorem step_of_text (h : m.text? = some t) (hok : ctx.roots.intern t m.heap = .ok value heap) :
    ∃ k rest, Exec.step ctx m = .ok () k ∧ k.heap = heap ∧ m.stack? = some rest ∧ k.stack? = some (value :: rest) := by
  obtain ⟨top, callers, index, hframes, hdecode, hl⟩ := text?_eq_some_iff.1 h
  obtain ⟨fetched, hheap, hfetched, hstep⟩ := step_text ctx hframes hdecode
  have hliteral : Exec.literal ctx .text index fetched = .ok value { fetched with heap } := by
    rw [Exec.literal_text_eq ctx hfetched]
    simp only [Frame.past, hl]
    exact Exec.onHeap_of_ok (hheap ▸ hok)
  have hframes' : ({ fetched with heap } : Machine).process.frames = top.past (.pushLiteral .text index) :: callers :=
    hfetched
  rw [bind_of_ok hliteral, Exec.push_of_frames hframes'] at hstep
  refine ⟨_, top.stack, hstep, rfl, ?_, rfl⟩
  rw [stack?, hframes]
  rfl

/-- A push of a text that gets no object fails before anything is done to the heap. -/
theorem step_of_refused {index : UInt8} (hreads : m.Reads (.pushLiteral .text index))
    (h : ∀ t, m.text? = some t → ∀ value heap, ctx.roots.intern t m.heap ≠ .ok value heap) :
    ∃ fault k, Exec.step ctx m = .error fault k ∧ k.heap = m.heap := by
  obtain ⟨top, callers, hframes, hdecode⟩ := hreads
  obtain ⟨fetched, hheap, hfetched, hstep⟩ := step_text ctx hframes hdecode
  have hliteral := Exec.literal_text_eq ctx hfetched index
  rw [hstep]
  split at hliteral
  · rename_i t hl
    cases hintern : ctx.roots.intern t m.heap with
    | ok value heap =>
      have htext : m.text? = some t := text?_eq_some_iff.2 ⟨top, callers, index, hframes, hdecode, hl⟩
      exact absurd hintern (h t htext value heap)
    | error fault heap =>
      rw [Exec.onHeap_of_error (hheap ▸ hintern)] at hliteral
      rw [bind_of_error hliteral]
      exact ⟨fault, _, rfl, Heap.intern_error hintern⟩
  · rw [bind_of_error hliteral]
    exact ⟨_, _, rfl, hheap⟩
  · rw [bind_of_error hliteral]
    exact ⟨_, _, rfl, hheap⟩

theorem advance_of_text (h : m.text? = some t) (hok : ctx.roots.intern t m.heap = .ok value heap) :
    (m.advance ctx).heap = heap := by
  obtain ⟨k, -, hstep, hheap, -⟩ := step_of_text h hok
  rw [advance, hstep]
  exact hheap

/-- An instruction that gets no object for a text obeys all rules. -/
theorem obeys_advance (rule : Heap.RunRule) (hassigns : ∀ id, rule.assigns id) (hedits : ∀ id, rule.edits id)
    (h : ∀ t, m.text? = some t → ∀ value heap, ctx.roots.intern t m.heap ≠ .ok value heap) :
    rule.Holds m.heap (m.advance ctx).heap := by
  by_cases hreads : ∃ index, m.Reads (.pushLiteral .text index)
  · obtain ⟨index, hreads⟩ := hreads
    obtain ⟨fault, k, hstep, hheap⟩ := step_of_refused hreads h
    rw [advance, hstep, ← hheap]
    exact rule.fail ctx fault k
  · exact Heap.RunRule.advance ⟨fun id _ => hassigns id, fun id _ => hedits id, fun index hindex =>
      absurd ⟨index, hindex⟩ hreads⟩

/-- An instruction keeps the table, or lists a text. -/
theorem pools_advance (ctx : Context) (m : Machine) : m.heap.Pools (m.advance ctx).heap := by
  by_cases h : ∃ t value heap, m.text? = some t ∧ ctx.roots.intern t m.heap = .ok value heap
  · obtain ⟨t, value, heap, htext, hok⟩ := h
    obtain ⟨-, -, -, hpools, -⟩ := Heap.intern_ok hok
    rwa [advance_of_text htext hok]
  · have hobeys := obeys_advance (.table []) (fun _ => trivial) (fun _ => trivial) fun t htext value heap hok =>
      h ⟨t, value, heap, htext, hok⟩
    exact Heap.SameTable.pools hobeys

/-- The next instruction is a send whose operands are at hand, with the value `selector` on top. -/
inductive Offers (m : Machine) (selector receiver : Value) : Option String → List Value → Prop
  | plain {kind : SendKind} {count : UInt8} {args rest : List Value} (hreads : m.Reads (.send kind count))
      (hkind : kind.isResend = false) (hstack : m.stack? = some (selector :: (args.reverse ++ receiver :: rest)))
      (hcount : args.length = kind.argCount count) : Offers m selector receiver none args
  | resend {kind : SendKind} {count : UInt8} {args rest : List Value} {parent : Value} {name : String}
      (hreads : m.Reads (.send kind count)) (hkind : kind.isResend = true)
      (hstack : m.stack? = some (selector :: parent :: (args.reverse ++ receiver :: rest)))
      (hname : m.heap.text? parent = some name) (hcount : args.length = kind.argCount count) :
      Offers m selector receiver (some name) args

theorem Offers.sends {selector receiver : Value} {parent : Option String} {args : List Value}
    (h : m.Offers selector receiver parent args) (htext : m.heap.text? selector = some t) :
    m.Sends ⟨receiver, t, parent, args⟩ := by
  cases h with
  | plain hreads hkind hstack hcount => exact ⟨_, _, _, _, hreads, hstack, .plain hkind rfl rfl htext hcount⟩
  | resend hreads hkind hstack hname hcount =>
    exact ⟨_, _, _, _, hreads, hstack, .resend hkind rfl rfl htext hname hcount⟩

end Machine

/-! ## The course of a history -/

/-- What comes next in a history: the user is about to ask for the object of a text, a process to carry out an
instruction, or something else is about to happen. -/
inductive Instant
  | intern (heap : Heap) (t : String)
  | instruction (m : Machine)
  | other (heap : Heap)

namespace Instant

def heap : Instant → Heap
  | intern heap _ | other heap => heap
  | instruction m => m.heap

/-- The text for which an object is about to be asked. -/
def text? : Instant → Option String
  | intern _ t => some t
  | instruction m => m.text?
  | other _ => none

/-- If the earlier instant lists a text, the later one still has it. -/
def Precedes (ctx : Context) (instant next : Instant) : Prop :=
  ∀ t value heap, instant.text? = some t → ctx.roots.intern t instant.heap = .ok value heap → heap.Pools next.heap

/-- In the course of the instants nothing is lost that is listed, be it there at the beginning or not. -/
structure Course (ctx : Context) (heap : Heap) (instants : List Instant) : Prop where
  precedes : instants.Pairwise (Precedes ctx)
  pools : ∀ instant ∈ instants, heap.Pools instant.heap

variable {ctx : Context} {heap heap' : Heap} {instant : Instant} {instants rest : List Instant}

theorem Course.single (ctx : Context) (heap : Heap) : Course ctx heap [.other heap] :=
  ⟨List.pairwise_singleton _ _, List.forall_mem_singleton.2 (.refl heap)⟩

theorem Course.cons (h : Course ctx heap' instants) (hheap : instant.heap = heap) (hpools : heap.Pools heap')
    (hlists : ∀ t value left, instant.text? = some t → ctx.roots.intern t heap = .ok value left → left = heap') :
    Course ctx heap (instant :: instants) := by
  refine ⟨List.pairwise_cons.2 ⟨fun next hnext t value left htext hok => ?_, h.precedes⟩, fun next hnext => ?_⟩
  · exact hlists t value left htext (hheap ▸ hok) ▸ h.pools next hnext
  · rcases List.mem_cons.1 hnext with rfl | hnext
    · exact hheap ▸ .refl heap
    · exact hpools.trans (h.pools next hnext)

/-- A course goes on from the heap in which an earlier one ends. -/
theorem Course.append (h : Course ctx heap (instants ++ [.other heap'])) (h' : Course ctx heap' rest) :
    Course ctx heap (instants ++ rest) := by
  obtain ⟨hpairwise, -, hlast⟩ := List.pairwise_append.1 h.precedes
  refine ⟨List.pairwise_append.2 ⟨hpairwise, h'.precedes, fun instant hinstant next hnext t value listed htext hok =>
    ?_⟩, fun next hnext => ?_⟩
  · exact (hlast instant hinstant _ List.mem_cons_self t value listed htext hok).trans (h'.pools next hnext)
  · rcases List.mem_append.1 hnext with hnext | hnext
    · exact h.pools next (List.mem_append_left _ hnext)
    · exact (h.pools _ (List.mem_append_right _ List.mem_cons_self)).trans (h'.pools next hnext)

/-- A turn is a course. -/
theorem course_run (ctx : Context) (budget : Nat) (m : Machine) :
    Course ctx m.heap ((m.moments ctx budget).map instruction ++ [.other (m.run ctx budget).heap]) := by
  induction budget generalizing m with
  | zero => exact .single ctx m.heap
  | succ budget ih =>
    unfold Machine.moments Machine.run
    split
    · exact .single ctx m.heap
    · exact (ih (m.advance ctx)).cons rfl (m.pools_advance ctx) fun t value left htext hok =>
        (Machine.advance_of_text htext hok).symm

end Instant

namespace Session

variable {plain : Prop} {w : Session} {action : Action} {actions : List Action}

/-- The instants of an action. -/
def instants (w : Session) : Action → List Instant
  | .request (.intern t) => [.intern w.heap t]
  | .run limit => (w.moments (.run limit)).map .instruction
  | .tick index => (w.moments (.tick index)).map .instruction
  | _ => [.other w.heap]

/-- The instants of a history, up to its end. -/
def timeline : Session → List Action → List Instant
  | w, [] => [.other w.heap]
  | w, action :: rest => w.instants action ++ (w.after action).timeline rest

open Instant (Course)

/-- Something else than a text is asked for, or nothing. -/
theorem course_other {heap : Heap} (h : w.heap.Pools heap) :
    Course w.scheduler.context w.heap ([.other w.heap] ++ [.other heap]) := by
  refine (Course.single _ heap).cons rfl h ?_
  rintro _ _ _ ⟨⟩

theorem heap_perform_intern {t : String} {value : Value} {heap : Heap}
    (hok : w.roots.intern t w.heap = .ok value heap) : (w.perform (.intern t)).heap = heap := by
  have hrun : (Request.intern t).run w.roots w.heap = .ok [value] heap := bind_of_ok hok
  simp only [perform, hrun]

theorem course_request (w : Session) (r : Request) :
    Course w.scheduler.context w.heap (w.instants (.request r) ++ [.other (w.perform r).heap]) := by
  by_cases hr : ∃ t, r = .intern t
  · obtain ⟨t, rfl⟩ := hr
    have hpools : w.heap.Pools (w.perform (.intern t)).heap := by
      cases hintern : w.roots.intern t w.heap with
      | ok value heap =>
        obtain ⟨-, -, -, hpools, -⟩ := Heap.intern_ok hintern
        rwa [heap_perform_intern hintern]
      | error fault heap =>
        have hrun : (Request.intern t).run w.roots w.heap = .error fault heap := bind_of_error hintern
        simp only [perform, hrun]
        exact Heap.intern_error hintern ▸ .refl heap
    refine (Course.single _ _).cons rfl hpools ?_
    rintro _ value heap ⟨⟩ hok
    exact (heap_perform_intern hok).symm
  · obtain ⟨copies, hcopies⟩ : ∃ copies : List Object, ∀ copy, r = .allocate copy → copy ∈ copies := by
      cases r with
      | allocate copy => exact ⟨[copy], fun _ h => by simp [Request.allocate.inj h]⟩
      | _ => exact ⟨[], fun _ h => by cases h⟩
    have hobeys : (Heap.RunRule.table copies).Governs (r.run w.roots) w.heap :=
      Heap.Rule.governs_request
        { method := fun _ _ => trivial
          unit := fun _ _ _ _ => trivial
          copy := hcopies
          assign := fun _ _ _ _ => trivial
          edit := fun _ _ => trivial
          list := fun t ht => hr ⟨t, ht⟩ }
    have hpools : w.heap.Pools (w.perform r).heap := by
      unfold perform
      split
      · exact Heap.SameTable.pools (hobeys.of_ok ‹_›)
      · exact Heap.SameTable.pools (hobeys.of_error ‹_›).2
    have hinstants : w.instants (.request r) = [.other w.heap] := by
      cases r with
      | intern t => exact absurd ⟨t, rfl⟩ hr
      | _ => rfl
    rw [hinstants]
    exact course_other hpools

theorem course_turn (w : Session) (limit : Nat) :
    Course w.scheduler.context w.heap (w.instants (.run limit) ++ [.other (w.after (.run limit)).heap]) := by
  cases hpool : w.scheduler.pool with
  | nil =>
    simp only [instants, moments, after, Scheduler.runOnce, hpool]
    exact .single _ w.heap
  | cons process rest =>
    simp only [instants, moments, after, Scheduler.runOnce, hpool]
    split
    · rename_i hdone
      rw [Machine.moments_of_isFinished hdone]
      exact .single _ w.heap
    · exact Instant.course_run _ _ (w.scheduler.machine process)

theorem course_tick (w : Session) (index : Nat) :
    Course w.scheduler.context w.heap (w.instants (.tick index) ++ [.other (w.after (.tick index)).heap]) := by
  cases hprocess : w.scheduler.pool[index]? with
  | none =>
    simp only [instants, moments, after, Scheduler.tick, hprocess]
    exact .single _ w.heap
  | some process =>
    simp only [instants, moments, after, Scheduler.tick, hprocess]
    split
    · rename_i hdone
      rw [Machine.moments_of_isFinished hdone]
      exact .single _ w.heap
    · rename_i hgoing
      have hturn := Instant.course_run w.scheduler.context 1 (w.scheduler.machine process)
      rw [show (w.scheduler.machine process).run w.scheduler.context 1 =
        (w.scheduler.machine process).advance w.scheduler.context from if_neg hgoing] at hturn
      exact hturn

theorem course_instants (w : Session) (action : Action) :
    Course w.scheduler.context w.heap (w.instants action ++ [.other (w.after action).heap]) := by
  cases action with
  | request r => exact w.course_request r
  | learn | copy | note => exact course_other (.refl w.heap)
  | load code =>
    have hload : w.heap.SameTable (w.heap.load code).2 :=
      (Heap.RunRule.table []).aside rfl rfl rfl rfl (Nat.le_succ _) rfl
    exact course_other hload.pools
  | add unit =>
    refine course_other ?_
    simp only [after]
    split <;> exact .refl w.heap
  | remove id =>
    refine course_other ?_
    simp only [after, Scheduler.removeProcess]
    split <;> exact .refl w.heap
  | run limit => exact w.course_turn limit
  | tick index => exact w.course_tick index

theorem course_timeline (w : Session) (actions : List Action) :
    Course w.scheduler.context w.heap (w.timeline actions) := by
  induction actions generalizing w with
  | nil => exact .single _ w.heap
  | cons action actions ih =>
    have hrest := ih (w.after action)
    rw [w.context_after action] at hrest
    exact (w.course_instants action).append hrest

/-! ## Objects in the table -/

end Session

/-- The objects in the table are there. -/
def Heap.Stocked (heap : Heap) : Prop := ∀ t id, heap.strings.lookup t = some id → heap.isLive id = true

theorem Heap.Sound.stocked {policy : Policy} {roots : Roots} {frames : List Frame} {heap : Heap}
    (hs : heap.Sound policy roots frames) : heap.Stocked := by
  intro t id hlisted
  obtain ⟨before, after, hstrings, -⟩ := List.lookup_eq_some_iff.1 hlisted
  refine (hs.anchors id ?_).isLive
  simp [Heap.anchors, hstrings]

theorem Machine.sound_moments {policy : Policy} {ctx : Context} {others : List Frame} {m : Machine} (budget : Nat)
    (hs : m.Sound policy ctx.roots others) : ∀ k ∈ m.moments ctx budget, k.Sound policy ctx.roots others := by
  induction budget generalizing m with
  | zero => exact fun _ hk => absurd hk List.not_mem_nil
  | succ budget ih =>
    unfold moments
    split
    · exact fun _ hk => absurd hk List.not_mem_nil
    · exact List.forall_mem_cons.2 ⟨hs, ih (follows_advance hs).sound⟩

namespace Session

variable {plain : Prop} {w : Session} {action : Action} {actions : List Action}

theorem Reachable.stocked_moments (hw : w.Reachable plain) (action : Action) :
    ∀ k ∈ w.moments action, k.heap.Stocked := by
  have hturn {process : Process} (hprocess : process ∈ w.scheduler.pool) (budget : Nat) :
      ∀ k ∈ (w.scheduler.machine process).moments w.scheduler.context budget, k.heap.Stocked := by
    obtain ⟨before, after, hpool⟩ := List.append_of_mem hprocess
    have hs : (w.scheduler.machine process).Sound (w.policy plain) w.scheduler.context.roots _ :=
      hw.sound.toSound.machine (hpool ▸ List.perm_middle)
    exact fun k hk => (Machine.sound_moments budget hs k hk).stocked
  unfold moments
  split
  · split
    · rename_i process rest hpool
      exact hturn (hpool ▸ List.mem_cons_self) _
    · exact fun _ hk => absurd hk List.not_mem_nil
  · split
    · rename_i process hprocess
      exact hturn (List.mem_of_getElem? hprocess) 1
    · exact fun _ hk => absurd hk List.not_mem_nil
  all_goals exact fun _ hk => absurd hk List.not_mem_nil

theorem Reachable.stocked_instants (hw : w.Reachable plain) (action : Action) :
    ∀ instant ∈ w.instants action, instant.heap.Stocked := by
  have hsingle {instant : Instant} (h : instant.heap = w.heap) : ∀ next ∈ [instant], next.heap.Stocked :=
    List.forall_mem_singleton.2 (h ▸ hw.sound.heap.stocked)
  cases action with
  | request r => cases r <;> exact hsingle rfl
  | learn | copy | load | add | remove | note => exact hsingle rfl
  | run limit => exact List.forall_mem_map.2 (hw.stocked_moments (.run limit))
  | tick index => exact List.forall_mem_map.2 (hw.stocked_moments (.tick index))

theorem Reachable.stocked_timeline (hw : w.Reachable plain) (h : w.PermitsAll plain actions) :
    ∀ instant ∈ w.timeline actions, instant.heap.Stocked := by
  induction actions generalizing w with
  | nil => exact List.forall_mem_singleton.2 hw.sound.heap.stocked
  | cons action actions ih =>
    intro instant hinstant
    rcases List.mem_append.1 hinstant with hinstant | hinstant
    · exact hw.stocked_instants action instant hinstant
    · exact ih (hw.step h.1.step) h.2 instant hinstant

theorem labelled_of_create {config : Config} {maxObjects : Nat} {s : Scheduler}
    (hs : Scheduler.create config maxObjects = .ok s) : s.heap.Labelled := by
  unfold Scheduler.create at hs
  split at hs
  · rename_i hcreate
    cases hs
    have hobeys : (Heap.RunRule.table []).Governs Roots.create (Heap.empty maxObjects) :=
      Heap.Rule.governs_create fun _ => trivial
    exact Heap.SameTable.labelled (hobeys.of_ok hcreate) (Heap.labelled_empty maxObjects)
  · cases hs

end Session

/-! ## Canonical objects -/

/-- At this instant the value is the one object for the text: it is there and has the text, whoever asks for the text
gets it and whoever asks for another does not, and a send with the value as its selector looks the text up. -/
structure Instant.Canonical (ctx : Context) (t : String) (value : Value) (instant : Instant) : Prop where
  live : ∃ id, value = .ref id ∧ instant.heap.isLive id = true
  text_eq : instant.heap.text? value = some t
  again : ctx.roots.intern t instant.heap = .ok value instant.heap
  distinct : ∀ u other heap, ctx.roots.intern u instant.heap = .ok other heap → (other = value ↔ u = t)
  dispatches : ∀ m receiver parent args, instant = .instruction m → m.Offers value receiver parent args →
    ∃ sent, Exec.step ctx m = Exec.dispatch ctx receiver t parent args sent ∧ sent.heap = m.heap

theorem Instant.canonical_of_listed {ctx : Context} {t : String} {id : ObjectId} {instant : Instant}
    (hlabelled : instant.heap.Labelled) (hlisted : instant.heap.strings.lookup t = some id)
    (hlive : instant.heap.isLive id = true) : instant.Canonical ctx t (.ref id) := by
  have htext := hlabelled.text? hlisted hlive
  refine ⟨⟨id, rfl, hlive⟩, htext, Heap.intern_of_some hlisted, fun u other heap hok => ?_, ?_⟩
  · exact hlabelled.intern_eq_iff hlisted hlive hok
  · rintro m receiver parent args rfl hoffers
    obtain ⟨sent, hstep, hheap, -⟩ := (hoffers.sends htext).step_eq ctx
    exact ⟨sent, hstep, hheap⟩

namespace Session

variable {plain : Prop} {actions : List Action}

/-- A text gets its object once and for all. When it is asked for in the course of a history, by the user or by a
literal of a program, and there is room for an object, then the value that is handed out, and pushed by the literal, is
the one object for the text at all later instants, whatever is done to this object. When there is no room, nothing is
changed. -/
theorem interned_canonical {config : Config} {maxObjects : Nat} {s : Scheduler}
    (hs : Scheduler.create config maxObjects = .ok s) (hpermits : PermitsAll plain { scheduler := s } actions)
    {earlier later : List Instant} {instant : Instant}
    (htimeline : timeline { scheduler := s } actions = earlier ++ instant :: later) :
    (∀ t value heap, instant.text? = some t → s.roots.intern t instant.heap = .ok value heap →
      (∀ m, instant = .instruction m → ∃ k rest, Exec.step s.context m = .ok () k ∧ k.heap = heap ∧
        m.stack? = some rest ∧ k.stack? = some (value :: rest)) ∧
      ∀ next ∈ later, next.Canonical s.context t value) ∧
    ∀ t fault heap, s.roots.intern t instant.heap = .error fault heap → heap = instant.heap ∧
      ∀ m, instant = .instruction m → m.text? = some t → (m.advance s.context).heap.strings = m.heap.strings := by
  have hcourse := course_timeline { scheduler := s } actions
  have hstocked := (Reachable.start hs).stocked_timeline hpermits
  refine ⟨fun t value heap htext hok => ⟨?_, fun next hnext => ?_⟩, fun t fault heap herror =>
    ⟨Heap.intern_error herror, ?_⟩⟩
  · rintro m rfl
    exact Machine.step_of_text htext hok
  · have hmem : next ∈ timeline { scheduler := s } actions := by simp [htimeline, hnext]
    have hprecedes : instant.Precedes s.context next := by
      have hpairwise := hcourse.precedes
      rw [htimeline] at hpairwise
      exact (List.pairwise_cons.1 (List.pairwise_append.1 hpairwise).2.1).1 next hnext
    obtain ⟨id, rfl, hlisted, -⟩ := Heap.intern_ok hok
    have hlisted' := (hprecedes t _ heap htext hok).kept t id hlisted
    exact Instant.canonical_of_listed ((hcourse.pools next hmem).labelled (labelled_of_create hs)) hlisted'
      (hstocked next hmem t id hlisted')
  · rintro m rfl htext
    refine (Machine.obeys_advance (.table []) (fun _ => trivial) (fun _ => trivial) fun u hu value heap hok => ?_).1
    obtain rfl := Option.some.inj (htext.symm.trans hu)
    exact absurd (hok.symm.trans herror) nofun

/-- Runs `'abc' size`. -/
def sizeOfText : List Line := .push (.text "abc") :: Demo.send "size" .unary 0

/-- Two processes run `sizeOfText`. Between their pushes of the selector the user gives its object a slot and a
parent. -/
def sharedSelector : Option (Scheduler × List Action) :=
  match Scheduler.create {} 100, Code.compile sizeOfText with
  | .ok s, .ok code =>
    some (s, [.load code, .add 0, .add 0, .tick 0, .tick 0, .tick 1, .learn (.ref s.roots.nil),
      .request (.addSlot ⟨49, 0⟩ "own" (.ref s.roots.nil)), .request (.addParent ⟨49, 0⟩ "up" (.ref s.roots.nil)),
      .tick 1, .tick 1])
  | _, _ => none

theorem create_of_sharedSelector {s : Scheduler} (h : sharedSelector = some (s, actions)) :
    Scheduler.create {} 100 = .ok s := by
  unfold sharedSelector at h
  split at h
  · rename_i hs _
    rw [hs, (Prod.mk.inj (Option.some.inj h)).1]
  · cases h

/-- Whether the machine is about to send with the selector on top of the receiver. -/
def sendsWith (selector receiver : Value) (m : Machine) : Bool :=
  m.process.frames.head?.any fun top =>
    (Instruction.decode top.body.code.bytes top.ip).toOption == some (.send .unary 0) &&
      top.stack == [selector, receiver]

theorem offers_of_sendsWith {selector receiver : Value} {m : Machine} (h : sendsWith selector receiver m = true) :
    m.Offers selector receiver none [] := by
  unfold sendsWith at h
  simp only [Option.any_eq_true, Bool.and_eq_true, beq_iff_eq] at h
  obtain ⟨top, htop, hdecode, hstack⟩ := h
  obtain ⟨callers, hframes⟩ := List.head?_eq_some_iff.1 htop
  have hreads : m.Reads (.send .unary 0) := by
    refine ⟨top, callers, hframes, ?_⟩
    cases hresult : Instruction.decode top.body.code.bytes top.ip with
    | error fault => simp [hresult, Except.toOption] at hdecode
    | ok i => simpa [hresult, Except.toOption] using hdecode
  exact .plain hreads rfl (Machine.stack?_eq_some.2 ⟨top, callers, hframes, hstack⟩) rfl

/-- Whether the next instruction pushes `size`, and another process sends with its object after this has a slot. -/
def passesOn (s : Scheduler) : List Instant → Bool
  | .instruction k :: later =>
    k.text? == some "size" && match s.roots.intern "size" k.heap with
      | .error .. => false
      | .ok value _ => later.any fun
        | .instruction m => m.process.id != k.process.id &&
          ((m.heap.object? value).bind (·.slot? "own")).isSome && sendsWith value (.ref ⟨48, 0⟩) m
        | _ => false
  | _ => false

theorem exists_of_passesOn {s : Scheduler} {instants : List Instant} (h : passesOn s instants = true) :
    ∃ (k m : Machine) (later : List Instant) (value : Value) (heap : Heap), instants = .instruction k :: later ∧
      k.text? = some "size" ∧ s.roots.intern "size" k.heap = .ok value heap ∧ .instruction m ∈ later ∧
      m.process.id ≠ k.process.id ∧ ((m.heap.object? value).bind (·.slot? "own")).isSome = true ∧
      sendsWith value (.ref ⟨48, 0⟩) m = true := by
  unfold passesOn at h
  split at h
  · rename_i k later
    rw [Bool.and_eq_true, beq_iff_eq] at h
    obtain ⟨htext, h⟩ := h
    split at h
    · cases h
    · rename_i value heap hok
      obtain ⟨next, hnext, hsends⟩ := List.any_eq_true.1 h
      split at hsends
      · rename_i m
        simp only [Bool.and_eq_true, bne_iff_ne] at hsends
        exact ⟨k, m, later, value, heap, rfl, htext, hok, hnext, hsends.1.1, hsends.1.2, hsends.2⟩
      · cases hsends
  · cases h

/-- The second process looks up what the first one pushed, though the object has a slot and a parent more by then. -/
theorem interned_canonical_enacted :
    ∃ (s : Scheduler) (actions : List Action) (earlier later : List Instant) (k m sent : Machine) (value : Value)
      (heap : Heap), Scheduler.create {} 100 = .ok s ∧ PermitsAll True { scheduler := s } actions ∧
      timeline { scheduler := s } actions = earlier ++ .instruction k :: later ∧ k.text? = some "size" ∧
      s.roots.intern "size" k.heap = .ok value heap ∧ .instruction m ∈ later ∧ m.process.id ≠ k.process.id ∧
      ((m.heap.object? value).bind (·.slot? "own")).isSome = true ∧ m.Offers value (.ref ⟨48, 0⟩) none [] ∧
      m.heap.text? value = some "size" ∧ s.roots.intern "size" m.heap = .ok value m.heap ∧
      Exec.step s.context m = Exec.dispatch s.context (.ref ⟨48, 0⟩) "size" none [] sent := by
  have hshared : (sharedSelector.any fun (s, actions) => grantsAll { scheduler := s } actions &&
      passesOn s ((timeline { scheduler := s } actions).drop 4)) = true := by
    decide +kernel
  simp only [Option.any_eq_true, Prod.exists, Bool.and_eq_true] at hshared
  obtain ⟨s, actions, hactions, hgrants, hpasses⟩ := hshared
  have hs := create_of_sharedSelector hactions
  have hpermits : PermitsAll True { scheduler := s } actions := permitsAll_of_grantsAll hgrants
  obtain ⟨k, m, later, value, heap, hlater, htext, hok, hm, hid, hslot, hsends⟩ := exists_of_passesOn hpasses
  have htimeline := List.take_append_drop 4 (timeline { scheduler := s } actions)
  rw [hlater] at htimeline
  have hcanonical := ((interned_canonical hs hpermits htimeline.symm).1 "size" value heap htext hok).2 _ hm
  have hoffers := offers_of_sendsWith hsends
  obtain ⟨sent, hstep, -⟩ := hcanonical.dispatches m _ _ _ rfl hoffers
  exact ⟨s, actions, _, later, k, m, sent, value, heap, hs, hpermits, htimeline.symm, htext, hok, hm, hid, hslot,
    hoffers, hcanonical.text_eq, hcanonical.again, hstep⟩

end Session

end ProtoVm
