import ProtoVm.Code.Assembly
import ProtoVm.Proofs.InstructionStream
import ProtoVm.Proofs.OperandStack

/-!
# Assembled code

A unit whose lines leave the pool indices to the assembler can be read from its start to its end, and each literal push
in it names an entry of its own kind. So do the units of the object literals it pushes, at any depth.
-/

namespace ProtoVm

theorem exists_of_bind_eq_ok {α β : Type} {x : Except Fault α} {f : α → Except Fault β} {b : β}
    (h : (x >>= f) = .ok b) : ∃ a, x = .ok a ∧ f a = .ok b := by
  cases x with
  | error fault => cases h
  | ok a => exact ⟨a, rfl, h⟩

namespace Code

/-- As long as a frame has not come past a return that is ahead of it, it can read on. -/
theorem Place.decode {code : Code} {ip : Nat} (h : code.Place ip)
    (hreturn : .returnTop ∈ (Instruction.stream code.bytes 0).1.map (·.2)) (hgoing : .returnTop ∉ code.before ip) :
    ∃ i, Instruction.decode code.bytes ip = .ok i := by
  cases hdecode : Instruction.decode code.bytes ip with
  | ok i => exact ⟨i, rfl⟩
  | error fault =>
    have hnil : (Instruction.stream code.bytes ip).1 = [] := by
      rw [Instruction.stream]
      split
      · rw [hdecode]
      · rfl
    have hstream := h.stream_eq
    rw [hnil, List.append_nil] at hstream
    rw [hstream] at hreturn
    exact absurd hreturn hgoing

/-! ## Units -/

/-- A push of a literal of this kind finds an entry of the kind in the pool, and an integer fits in a value. -/
def Names (code : Code) (kind : LiteralKind) (index : UInt8) : Prop :=
  kind = .nil ∨ kind = .assignment ∨
    ∃ l, code.literals[index.toNat]? = some l ∧ l.kind = kind ∧ ∀ n, l = .int n → (Fixnum.ofInt? n).isSome = true

inductive Assembled : Code → Prop
  | mk {code : Code} (instructions : List Instruction)
      (hbytes : code.bytes.toList = instructions.flatMap Instruction.encode)
      (hclosed : code.finalized = true → .returnTop ∈ instructions)
      (hnames : ∀ kind index, .pushLiteral kind index ∈ instructions → code.Names kind index)
      (hinner : ∀ index kind params inner, .pushLiteral .object index ∈ instructions →
        code.literals[index.toNat]? = some (.object kind params (some inner)) → Assembled inner) : Assembled code

namespace Assembled

variable {code : Code}

theorem stream_eq {instructions : List Instruction}
    (hbytes : code.bytes.toList = instructions.flatMap Instruction.encode) :
    (Instruction.stream code.bytes 0).2 = none ∧ (Instruction.stream code.bytes 0).1.map (·.2) = instructions := by
  have heq : code.bytes = (instructions.flatMap Instruction.encode).toArray := by rw [← hbytes, Array.toArray_toList]
  rw [heq, Instruction.stream_encode_all]
  exact ⟨rfl, Instruction.map_place 0 instructions⟩

theorem readable (h : code.Assembled) : (Instruction.stream code.bytes 0).2 = none := by
  obtain ⟨instructions, hbytes, -, -, -⟩ := h
  exact (stream_eq hbytes).1

theorem returns (h : code.Assembled) (hfinalized : code.finalized = true) :
    .returnTop ∈ (Instruction.stream code.bytes 0).1.map (·.2) := by
  obtain ⟨instructions, hbytes, hclosed, -, -⟩ := h
  rw [(stream_eq hbytes).2]
  exact hclosed hfinalized

theorem names (h : code.Assembled) {offset : Nat} {kind : LiteralKind} {index : UInt8}
    (hpush : (offset, .pushLiteral kind index) ∈ (Instruction.stream code.bytes 0).1) : code.Names kind index := by
  obtain ⟨instructions, hbytes, -, hnames, -⟩ := h
  refine hnames kind index ?_
  rw [← (stream_eq hbytes).2]
  exact List.mem_map_of_mem hpush

theorem inner (h : code.Assembled) {offset : Nat} {index : UInt8} {kind : ObjectKind} {params : List String}
    {inner : Code} (hpush : (offset, .pushLiteral .object index) ∈ (Instruction.stream code.bytes 0).1)
    (hliteral : code.literals[index.toNat]? = some (.object kind params (some inner))) : inner.Assembled := by
  obtain ⟨instructions, hbytes, -, -, hinner⟩ := h
  refine hinner index kind params inner ?_ hliteral
  rw [← (stream_eq hbytes).2]
  exact List.mem_map_of_mem hpush

theorem empty : Assembled {} := ⟨[], rfl, nofun, nofun, nofun⟩

theorem emit (h : code.Assembled) (hopen : code.finalized = false) {i : Instruction}
    (hnames : ∀ kind index, i = .pushLiteral kind index → code.Names kind index)
    (hinner : ∀ index kind params inner, i = .pushLiteral .object index →
      code.literals[index.toNat]? = some (.object kind params (some inner)) → inner.Assembled) :
    (code.emit i).Assembled := by
  obtain ⟨instructions, hbytes, -, hold, holdInner⟩ := h
  refine ⟨instructions ++ [i], ?_, ?_, fun kind index hpush => ?_, fun index kind params inner hpush hl => ?_⟩
  · simp [Code.emit, hbytes]
  · exact fun hfinalized => absurd hfinalized (by simp [Code.emit, hopen])
  · rcases List.mem_append.1 hpush with hpush | hpush
    · exact hold kind index hpush
    · exact hnames kind index (List.mem_singleton.1 hpush).symm
  · rcases List.mem_append.1 hpush with hpush | hpush
    · exact holdInner index kind params inner hpush hl
    · exact hinner index kind params inner (List.mem_singleton.1 hpush).symm hl

/-- A pool that grows at its end keeps what the pushes name. -/
theorem extend (h : code.Assembled) (l : Literal) :
    Assembled { code with literals := code.literals ++ [l] } := by
  obtain ⟨instructions, hbytes, hclosed, hnames, hinner⟩ := h
  have hkept {index : Nat} {found : Literal} (hfound : code.literals[index]? = some found) :
      (code.literals ++ [l])[index]? = some found := by
    rw [List.getElem?_append_left (List.getElem?_eq_some_iff.1 hfound).1, hfound]
  refine ⟨instructions, hbytes, hclosed, fun kind index hpush => ?_, fun index kind params inner hpush hl => ?_⟩
  · rcases hnames kind index hpush with hkind | hkind | ⟨found, hfound, hrest⟩
    · exact .inl hkind
    · exact .inr (.inl hkind)
    · exact .inr (.inr ⟨found, hkept hfound, hrest⟩)
  · refine hinner index kind params inner hpush ?_
    rcases hnames .object index hpush with hkind | hkind | ⟨found, hfound, -⟩
    · cases hkind
    · cases hkind
    · have heq := hkept hfound
      rw [hl] at heq
      rw [hfound, heq]

end Assembled

/-! ## Closing a unit -/

section

variable {code : Code} {kind : LiteralKind} {index : UInt8}

theorem finalized_finalize (code : Code) : code.finalize.finalized = true := by
  obtain ⟨bytes, literals, finalized⟩ := code
  cases finalized <;> rfl

theorem finalize_of_closed (h : code.finalized = true) : code.finalize = code := by
  obtain ⟨bytes, literals, finalized⟩ := code
  cases finalized with
  | false => cases h
  | true => rfl

theorem finalize_of_open (h : code.finalized = false) :
    code.finalize = ⟨code.bytes ++ padding, code.literals.map Literal.finalize, true⟩ := by
  obtain ⟨bytes, literals, finalized⟩ := code
  cases finalized with
  | false => rw [Code.finalize, finalizeLiterals_eq_map]
  | true => cases h

theorem kind_finalize (l : Literal) : l.finalize.kind = l.kind := by
  cases l with
  | object kind params code => cases code <;> rfl
  | _ => rfl

theorem Names.finalize (h : code.Names kind index) : code.finalize.Names kind index := by
  cases hfinalized : code.finalized with
  | true => rwa [finalize_of_closed hfinalized]
  | false =>
    rcases h with h | h | ⟨l, hl, hkind, hrange⟩
    · exact .inl h
    · exact .inr (.inl h)
    · refine .inr (.inr ⟨l.finalize, ?_, (kind_finalize l).trans hkind, fun n hn => hrange n ?_⟩)
      · rw [finalize_of_open hfinalized, List.getElem?_map, hl, Option.map_some]
      · cases l with
        | object kind params code => cases code <;> cases hn
        | _ => exact hn

end

/-- Closing a unit appends returns to it and closes the units of its literals. -/
theorem Assembled.finalize {code : Code} (h : code.Assembled) : code.finalize.Assembled := by
  -- by induction on how deep the units of its literals are nested
  induction h with
  | @mk code instructions hbytes hclosed hnames hinner ih =>
    cases hfinalized : code.finalized with
    | true =>
      rw [finalize_of_closed hfinalized]
      exact ⟨instructions, hbytes, hclosed, hnames, hinner⟩
    | false =>
      have hpushed {kind : LiteralKind} {index : UInt8}
          (h : .pushLiteral kind index ∈ instructions ++ List.replicate 4 Instruction.returnTop) :
          .pushLiteral kind index ∈ instructions := by
        simpa using h
      refine ⟨instructions ++ List.replicate 4 .returnTop, ?_, ?_, fun kind index hpush =>
        (hnames kind index (hpushed hpush)).finalize, fun index kind params inner hpush hl => ?_⟩
      · rw [finalize_of_open hfinalized, Array.toList_appendList, List.flatMap_append, hbytes]
        rfl
      · simp
      · rw [finalize_of_open hfinalized, List.getElem?_map] at hl
        obtain ⟨found, hfound, heq⟩ := Option.map_eq_some_iff.1 hl
        cases found with
        | object kind' params' code =>
          cases code with
          | none => cases heq
          | some code =>
            cases heq
            exact ih index _ _ code (hpushed hpush) hfound
        | _ => cases heq

/-! ## Adding to a unit -/

/-- A literal that is added is in the pool at the index that names it, and what the pool held before stays. -/
theorem addLiteral_spec {code code' : Code} {l : Literal} {index : UInt8} (h : code.addLiteral l = .ok (index, code'))
    (hpool : code.literals.length ≤ poolLimit) :
    code'.literals[index.toNat]? = some l ∧ code'.literals.length ≤ poolLimit ∧ code'.finalized = code.finalized ∧
      (code' = code ∨ code' = { code with literals := code.literals ++ [l] }) := by
  have hbyte {n : Nat} (hn : n < poolLimit) : n.toUInt8.toNat = n := by
    rw [UInt8.toNat_ofNat']
    exact Nat.mod_eq_of_lt hn
  unfold addLiteral at h
  split at h
  · rename_i found hfound
    cases h
    cases l with
    | text s =>
      obtain ⟨hlt, htext, -⟩ := List.findIdx?_eq_some_iff_getElem.1 hfound
      have hentry : code.literals[found] = .text s := by
        generalize code.literals[found] = entry at htext
        cases entry with
        | text t => rw [beq_iff_eq.1 htext]
        | _ => cases htext
      refine ⟨?_, hpool, rfl, .inl rfl⟩
      rw [hbyte (Nat.lt_of_lt_of_le hlt hpool), List.getElem?_eq_getElem hlt, hentry]
    | _ => cases hfound
  · split at h
    · rename_i hlt
      cases h
      refine ⟨?_, ?_, rfl, .inr rfl⟩
      · rw [hbyte hlt, List.getElem?_concat_length]
      · rw [List.length_append]
        exact hlt
    · cases h

/-- A unit that is being written; `closed` says whether its lines have closed it. -/
structure Written (closed : Bool) (code : Code) : Prop where
  assembled : code.Assembled
  pool : code.literals.length ≤ poolLimit
  closed : code.finalized = true → closed = true

namespace Written

variable {closed : Bool} {code code' : Code}

theorem empty (closed : Bool) : Written closed {} := ⟨.empty, Nat.zero_le _, nofun⟩

theorem emit (h : Written false code) {i : Instruction} (hnames : ∀ kind index, i = .pushLiteral kind index → code.Names kind index)
    (hinner : ∀ index kind params inner, i = .pushLiteral .object index →
      code.literals[index.toNat]? = some (.object kind params (some inner)) → inner.Assembled) :
    Written false (code.emit i) :=
  ⟨h.assembled.emit (Bool.eq_false_iff.2 fun hfinalized => Bool.false_ne_true (h.closed hfinalized)) hnames hinner,
    h.pool, h.closed⟩

theorem addLiteral (h : Written closed code) {l : Literal} {index : UInt8}
    (hok : code.addLiteral l = .ok (index, code')) :
    Written closed code' ∧ code'.literals[index.toNat]? = some l := by
  obtain ⟨hentry, hpool, hfinalized, heq⟩ := addLiteral_spec hok h.pool
  refine ⟨⟨?_, hpool, hfinalized ▸ h.closed⟩, hentry⟩
  rcases heq with rfl | rfl
  · exact h.assembled
  · exact h.assembled.extend l

theorem pushLiteral (h : Written false code) {l : Literal} (hok : code.pushLiteral l = .ok code')
    (hrange : ∀ n, l = .int n → (Fixnum.ofInt? n).isSome = true)
    (hinner : ∀ kind params inner, l = .object kind params (some inner) → inner.Assembled) : Written false code' := by
  obtain ⟨⟨index, added⟩, hadd, hemit⟩ := exists_of_bind_eq_ok hok
  cases hemit
  obtain ⟨hwritten, hentry⟩ := h.addLiteral hadd
  refine hwritten.emit (fun kind index' hi => ?_) fun index' kind params inner hi hl => ?_
  · cases hi
    exact .inr (.inr ⟨l, hentry, rfl, hrange⟩)
  · obtain ⟨-, rfl⟩ := Instruction.pushLiteral.inj hi
    rw [hentry] at hl
    exact hinner kind params inner (Option.some.inj hl)

theorem finalize (h : Written closed code) : Written true code.finalize := by
  refine ⟨h.assembled.finalize, ?_, fun _ => rfl⟩
  obtain ⟨bytes, literals, finalized⟩ := code
  cases finalized with
  | true => exact h.pool
  | false =>
    show (finalizeLiterals literals).length ≤ poolLimit
    rw [finalizeLiterals_eq_map, List.length_map]
    exact h.pool

end Written

end Code

/-! ## Lines -/

def Line.closes : Line → Bool
  | .finalize => true
  | _ => false

mutual

/-- Whether the unit of an object literal is written in checked lines. -/
def Entry.isChecked : Entry → Bool
  | .object _ _ (some lines) => Line.areChecked false lines
  | _ => true
termination_by structural entry => entry

/-- Whether a line leaves the index of a literal to the assembler and writes no instruction into a closed unit. -/
def Line.isChecked (closed : Bool) : Line → Bool
  | .push entry => !closed && entry.isChecked
  | .pushIndexed .. => false
  | .pool _ | .finalize => true
  | .pushSelf | .pushNil | .pushAssignment | .pop | .returnTop | .send .. | .addSlot _ => !closed
termination_by structural line => line

def Line.areChecked (closed : Bool) : List Line → Bool
  | [] => true
  | line :: rest => line.isChecked closed && Line.areChecked (closed || line.closes) rest
termination_by structural lines => lines

end

/-- The unit of an object literal is the one that its lines describe. -/
theorem Entry.literal_object {kind : ObjectKind} {params : List String} {lines : List Line} {l : Literal}
    (h : (Entry.object kind params (some lines)).literal = .ok l) :
    ∃ code, Code.append {} lines = .ok code ∧ l = .object kind params (some code) := by
  obtain ⟨code, happend, hl⟩ := exists_of_bind_eq_ok h
  exact ⟨code, happend, (Except.ok.inj hl).symm⟩

theorem Entry.range_of_check {entry : Entry} (hrange : entry.checkRange = .ok ()) {l : Literal}
    (hl : entry.literal = .ok l) {n : Int} (hn : l = .int n) : (Fixnum.ofInt? n).isSome = true := by
  subst hn
  cases entry with
  | int m =>
    cases hl
    by_contra hnone
    rw [show (Entry.int n).checkRange = if (Fixnum.ofInt? n).isSome then .ok () else .error (.integerOverflow n) from rfl,
      if_neg hnone] at hrange
    cases hrange
  | float x => cases hl
  | text s => cases hl
  | object kind params body =>
    cases body with
    | none => cases hl
    | some lines =>
      obtain ⟨code, -, heq⟩ := Entry.literal_object hl
      cases heq

mutual

theorem Entry.assembled (entry : Entry) (h : entry.isChecked = true) {l : Literal} (hl : entry.literal = .ok l)
    {kind : ObjectKind} {params : List String} {inner : Code} (heq : l = .object kind params (some inner)) :
    inner.Assembled := by
  subst heq
  match entry with
  | .int n => cases hl
  | .float x => cases hl
  | .text s => cases hl
  | .object kind' params' none => cases hl
  | .object kind' params' (some lines) =>
    obtain ⟨code, happend, heq⟩ := Entry.literal_object hl
    cases heq
    exact Code.assembled_append lines h (.empty false) happend
termination_by structural entry

theorem Code.written_appendLine (line : Line) {closed : Bool} {code code' : Code} (h : line.isChecked closed = true)
    (hcode : code.Written closed) (hok : code.appendLine line = .ok code') : code'.Written (closed || line.closes) := by
  have hemit {i : Instruction} (hopen : (!closed) = true)
      (hi : ∀ kind index, i = .pushLiteral kind index → kind = .nil ∨ kind = .assignment) :
      (code.emit i).Written (closed || false) := by
    obtain rfl : closed = false := by simpa using hopen
    refine hcode.emit (fun kind index heq => ?_) fun index kind params inner heq => ?_
    · rcases hi kind index heq with hkind | hkind
      · exact .inl hkind
      · exact .inr (.inl hkind)
    · rcases hi .object index heq with hkind | hkind <;> cases hkind
  match line with
  | .push entry =>
    obtain ⟨hopen, hentry⟩ := Bool.and_eq_true_iff.1 h
    obtain rfl : closed = false := by simpa using hopen
    obtain ⟨⟨⟩, hrange, hrest⟩ := exists_of_bind_eq_ok hok
    obtain ⟨l, hl, hpush⟩ := exists_of_bind_eq_ok hrest
    exact hcode.pushLiteral hpush (fun n => Entry.range_of_check hrange hl)
      fun kind params inner => Entry.assembled entry hentry hl
  | .pool entry =>
    obtain ⟨l, -, hrest⟩ := exists_of_bind_eq_ok hok
    obtain ⟨added, hadd, hdone⟩ := exists_of_bind_eq_ok hrest
    cases hdone
    rw [show (closed || (Line.pool entry).closes) = closed from Bool.or_false closed]
    exact (hcode.addLiteral hadd).1
  | .finalize =>
    cases hok
    rw [show (closed || Line.finalize.closes) = true from Bool.or_true closed]
    exact hcode.finalize
  | .pushIndexed kind index => cases h
  | .pushNil =>
    cases hok
    exact hemit h fun kind index heq => .inl (Instruction.pushLiteral.inj heq).1.symm
  | .pushAssignment =>
    cases hok
    exact hemit h fun kind index heq => .inr (Instruction.pushLiteral.inj heq).1.symm
  | .pushSelf | .pop | .returnTop | .send _ _ | .addSlot _ =>
    cases hok
    exact hemit h nofun
termination_by structural line

theorem Code.assembled_append (lines : List Line) {closed : Bool} {code code' : Code}
    (h : Line.areChecked closed lines = true) (hcode : code.Written closed) (hok : code.append lines = .ok code') :
    code'.Assembled := by
  match lines with
  | [] =>
    cases hok
    exact hcode.assembled
  | line :: rest =>
    obtain ⟨hline, hrest⟩ := Bool.and_eq_true_iff.1 h
    obtain ⟨middle, hone, hmore⟩ := exists_of_bind_eq_ok hok
    exact Code.assembled_append rest hrest (Code.written_appendLine line hline hcode hone) hmore
termination_by structural lines

end

/-- To compile is to assemble with a last line that closes the unit. -/
theorem Code.compile_eq_assemble (lines : List Line) : Code.compile lines = Code.assemble (lines ++ [.finalize]) := by
  suffices h : ∀ code : Code, (code.append lines >>= fun code => .ok code.finalize) = code.append (lines ++ [.finalize])
    from h {}
  induction lines with
  | nil => exact fun _ => rfl
  | cons line rest ih =>
    intro code
    show ((code.appendLine line >>= fun code => code.append rest) >>= fun code => .ok code.finalize) =
      (code.appendLine line >>= fun code => code.append (rest ++ [.finalize]))
    cases code.appendLine line with
    | error fault => rfl
    | ok middle => exact ih middle

end ProtoVm
