import Mathlib.Algebra.GroupWithZero.Nat
import Mathlib.Data.List.Infix
import ProtoVm.Code.Listing

/-!
# The instruction stream

Instructions that were written one after the other are read back as they were written, whatever follows them. What is
not an instruction is refused at the first byte that no instruction has in its place.
-/

namespace ProtoVm

/-! ## Bytes of the tables -/

/-- What is read from a byte is what it was written for. -/
structure Numbering {α : Type} (byte : α → UInt8) (ofByte? : UInt8 → Option α) : Prop where
  written (a : α) : ofByte? (byte a) = some a
  read {b : UInt8} {a : α} : ofByte? b = some a → b = byte a

theorem Opcode.numbering : Numbering byte ofByte? := by
  refine ⟨ofByte?_byte, fun h => ?_⟩
  unfold ofByte? at h
  split at h <;> cases h <;> rfl

theorem LiteralKind.numbering : Numbering byte ofByte? := by
  refine ⟨ofByte?_byte, fun h => ?_⟩
  unfold ofByte? at h
  split at h <;> cases h <;> rfl

theorem SendKind.numbering : Numbering byte ofByte? := by
  refine ⟨ofByte?_byte, fun h => ?_⟩
  unfold ofByte? at h
  split at h <;> cases h <;> rfl

theorem SlotKind.numbering : Numbering byte ofByte? := by
  refine ⟨ofByte?_byte, fun h => ?_⟩
  unfold ofByte? at h
  split at h <;> cases h <;> rfl

theorem Opcode.byte_injective {op other : Opcode} (h : op.byte = other.byte) : op = other :=
  Option.some.inj (by rw [← ofByte?_byte op, h, ofByte?_byte])

namespace Instruction

variable {bytes : Array UInt8} {offset : Nat}

/-! ## Reading what was written -/

theorem decode_encode (i : Instruction) {bytes : Array UInt8} {front back : List UInt8}
    (h : bytes.toList = front ++ (i.encode ++ back)) : decode bytes front.length = .ok i := by
  have hget (k : Nat) : bytes[front.length + k]? = (i.encode ++ back)[k]? := by
    rw [← Array.getElem?_toList, h, List.getElem?_append_right (Nat.le_add_right _ _), Nat.add_sub_cancel_left]
  have hzero := hget 0
  have hone := hget 1
  have htwo := hget 2
  cases i <;>
    simp_all [decode, fetch, fetchKind, encode, operands, opcode, Bind.bind, Except.bind, Pure.pure, Except.pure]

/-- The instructions with their offsets, the first of them at `offset`. -/
def place (offset : Nat) : List Instruction → List Placed
  | [] => []
  | i :: instructions => (offset, i) :: place (offset + i.length) instructions

theorem map_place (offset : Nat) (instructions : List Instruction) :
    (place offset instructions).map (·.2) = instructions := by
  induction instructions generalizing offset with
  | nil => rfl
  | cons i instructions ih => rw [place, List.map_cons, ih]

theorem length_flatMap_encode (instructions : List Instruction) :
    (instructions.flatMap encode).length = (instructions.map length).sum := by
  simp only [List.length_flatMap, length_encode]

theorem stream_of_size_le (h : bytes.size ≤ offset) : stream bytes offset = ([], none) := by
  rw [stream, if_neg (Nat.not_lt.2 h)]

/-- Reading comes to the end of what was written and goes on with what follows. -/
theorem stream_encode_append (instructions : List Instruction) {bytes : Array UInt8} {front back : List UInt8}
    (h : bytes.toList = front ++ (instructions.flatMap encode ++ back)) :
    stream bytes front.length =
      (place front.length instructions ++ (stream bytes (front ++ instructions.flatMap encode).length).1,
        (stream bytes (front ++ instructions.flatMap encode).length).2) := by
  induction instructions generalizing front with
  | nil => simp [place]
  | cons i instructions ih =>
    rw [List.flatMap_cons, List.append_assoc] at h
    have hlt : front.length < bytes.size := by
      have hsize := congrArg List.length h
      have := i.length_pos
      simp only [List.length_append, length_encode, Array.length_toList] at hsize
      omega
    have hrest : bytes.toList = (front ++ i.encode) ++ (instructions.flatMap encode ++ back) := by
      rw [h, List.append_assoc]
    have hstream := ih hrest
    rw [List.append_assoc, ← List.flatMap_cons, List.length_append, length_encode] at hstream
    rw [stream, if_pos hlt, decode_encode i h]
    simp only [hstream, place, List.cons_append]

/-! ## Prefixes of instructions -/

/-- The first `count` bytes from `offset` are also the first bytes of some instruction. -/
def Begins (bytes : Array UInt8) (offset count : Nat) : Prop :=
  ∃ i : Instruction, count ≤ i.length ∧ i.encode.take count <+: bytes.toList.drop offset

/-- No instruction stands at `offset`, and the byte `position` places on is the first that none has there. -/
structure Breaks (bytes : Array UInt8) (offset position : Nat) : Prop where
  unread : ∀ i : Instruction, ¬i.encode <+: bytes.toList.drop offset
  begins : Begins bytes offset position
  ends : ¬Begins bytes offset (position + 1)

/-- The fault of the byte that stands `position` places after the first of an instruction. -/
def refusal (bytes : Array UInt8) (offset position : Nat) : Fault :=
  match bytes[offset + position]? with
  | none => .truncatedCode (offset + position)
  | some byte => if position = 0 then .invalidOpcode byte else .invalidOperand (offset + position) byte

theorem take_encode_isPrefix_iff {i : Instruction} {count : Nat} (hcount : count ≤ i.length) :
    i.encode.take count <+: bytes.toList.drop offset ↔ ∀ k < count, bytes[offset + k]? = i.encode[k]? := by
  rw [List.prefix_iff_getElem?]
  simp only [List.length_take, length_encode, List.getElem?_drop, Array.getElem?_toList, List.getElem_take,
    Nat.min_eq_left hcount]
  refine forall₂_congr fun k hk => ?_
  rw [List.getElem?_eq_getElem (by rw [length_encode]; omega)]

theorem Begins.mono {count fewer : Nat} (h : Begins bytes offset count) (hle : fewer ≤ count) :
    Begins bytes offset fewer := by
  obtain ⟨i, hcount, htake⟩ := h
  refine ⟨i, hle.trans hcount, List.IsPrefix.trans ?_ htake⟩
  exact List.take_prefix_take_left hle

theorem Breaks.unique {position other : Nat} (h : Breaks bytes offset position) (hother : Breaks bytes offset other) :
    position = other := by
  rcases Nat.lt_trichotomy position other with hlt | heq | hlt
  · exact absurd (hother.begins.mono hlt) h.ends
  · exact heq
  · exact absurd (h.begins.mono hlt) hother.ends

/-! ## What is read -/

theorem decode_of_isPrefix {i : Instruction} (h : i.encode <+: bytes.toList.drop offset) :
    decode bytes offset = .ok i := by
  obtain ⟨back, hback⟩ := h
  have hle : offset ≤ bytes.toList.length := by
    have hlength := congrArg List.length hback
    have := i.length_pos
    rw [List.length_append, length_encode, List.length_drop] at hlength
    omega
  have hfront := List.length_take_of_le hle
  have hbytes : bytes.toList = bytes.toList.take offset ++ (i.encode ++ back) := by rw [hback, List.take_append_drop]
  have hread := decode_encode i hbytes
  rwa [hfront] at hread

/-- `i` agrees with the bytes up to `position`, and no instruction that begins like it has the byte there. -/
theorem Breaks.of_decode {position : Nat} {fault : Fault} (i : Instruction)
    (hdecode : decode bytes offset = .error fault) (hle : position ≤ i.length)
    (hagree : ∀ k < position, bytes[offset + k]? = i.encode[k]?)
    (hbreak : ∀ other : Instruction, position < other.length →
      (∀ k < position, other.encode[k]? = i.encode[k]?) → bytes[offset + position]? ≠ other.encode[position]?) :
    Breaks bytes offset position := by
  refine ⟨fun other hother => ?_, ⟨i, hle, (take_encode_isPrefix_iff hle).2 hagree⟩, ?_⟩
  · rw [decode_of_isPrefix hother] at hdecode
    cases hdecode
  · rintro ⟨other, hlt, htake⟩
    have hother := (take_encode_isPrefix_iff hlt).1 htake
    refine hbreak other hlt (fun k hk => ?_) (hother position (Nat.lt_succ_self position))
    rw [← hother k (Nat.lt_succ_of_lt hk), hagree k hk]

theorem fetch_cases (bytes : Array UInt8) (offset : Nat) :
    (∃ byte, bytes[offset]? = some byte ∧ fetch bytes offset = .ok byte) ∨
      bytes[offset]? = none ∧ fetch bytes offset = .error (.truncatedCode offset) := by
  unfold fetch
  cases bytes[offset]? with
  | none => exact .inr ⟨rfl, rfl⟩
  | some byte => exact .inl ⟨byte, rfl, rfl⟩

/-- The operand names a kind, or the fault is that of a byte after the first of its instruction. -/
theorem fetchKind_cases {α : Type} (ofByte? : UInt8 → Option α) (bytes : Array UInt8) (offset position : Nat) :
    (∃ byte kind, bytes[offset + (position + 1)]? = some byte ∧ ofByte? byte = some kind ∧
        fetchKind ofByte? bytes (offset + (position + 1)) = .ok kind) ∨
      (∀ byte, bytes[offset + (position + 1)]? = some byte → ofByte? byte = none) ∧
        fetchKind ofByte? bytes (offset + (position + 1)) = .error (refusal bytes offset (position + 1)) := by
  unfold fetchKind refusal
  rcases fetch_cases bytes (offset + (position + 1)) with ⟨byte, hbyte, hfetch⟩ | ⟨hbyte, hfetch⟩
  · rw [hfetch, hbyte]
    cases hkind : ofByte? byte with
    | none => exact .inr ⟨by simpa using hkind, by simp [bind, Except.bind, hkind]⟩
    | some kind => exact .inl ⟨byte, kind, rfl, hkind, by simp [bind, Except.bind, hkind]⟩
  · rw [hfetch, hbyte]
    exact .inr ⟨nofun, rfl⟩

theorem drop_eq_cons {byte : UInt8} (h : bytes[offset]? = some byte) :
    bytes.toList.drop offset = byte :: bytes.toList.drop (offset + 1) := by
  rw [← Array.getElem?_toList, List.getElem?_eq_some_iff] at h
  obtain ⟨hlt, rfl⟩ := h
  exact List.drop_eq_getElem_cons hlt

theorem breaks_zero {fault : Fault} (hdecode : decode bytes offset = .error fault)
    (hfirst : ∀ byte, bytes[offset]? = some byte → Opcode.ofByte? byte = none) : Breaks bytes offset 0 := by
  refine .of_decode pushSelf hdecode (Nat.zero_le _) nofun fun other _ _ hother => ?_
  have hnone := hfirst _ hother
  rw [Opcode.ofByte?_byte] at hnone
  cases hnone

/-- Only the instructions with the code of `i` can stand where its code stands. -/
theorem breaks_one {fault : Fault} (i : Instruction) (hdecode : decode bytes offset = .error fault)
    (hfirst : bytes[offset]? = some i.opcode.byte)
    (hsecond : ∀ other : Instruction, other.opcode = i.opcode → bytes[offset + 1]? ≠ other.encode[1]?) :
    Breaks bytes offset 1 := by
  refine .of_decode i hdecode i.length_pos (fun k hk => ?_) fun other _ hother => ?_
  · obtain rfl := Nat.lt_one_iff.1 hk
    exact hfirst
  · exact hsecond other (Opcode.byte_injective (Option.some.inj (hother 0 Nat.zero_lt_one)))

theorem breaks_two {fault : Fault} (i : Instruction) (hdecode : decode bytes offset = .error fault)
    (hlength : 2 ≤ i.length) (hfirst : bytes[offset]? = some i.opcode.byte)
    (hsecond : bytes[offset + 1]? = i.encode[1]?) (hthird : bytes[offset + 2]? = none) : Breaks bytes offset 2 := by
  refine .of_decode i hdecode hlength (fun k hk => ?_) fun other hlt _ => ?_
  · rcases Nat.lt_succ_iff_lt_or_eq.1 hk with hk | rfl
    · obtain rfl := Nat.lt_one_iff.1 hk
      exact hfirst
    · exact hsecond
  · rw [hthird, List.getElem?_eq_getElem (by rwa [length_encode])]
    exact nofun

/-- What stands at `offset` is an instruction, which is read, or breaks off at a byte, which is reported. -/
def Explained (bytes : Array UInt8) (offset : Nat) : Prop :=
  (∃ i : Instruction, decode bytes offset = .ok i ∧ i.encode <+: bytes.toList.drop offset) ∨
    ∃ position, Breaks bytes offset position ∧ decode bytes offset = .error (refusal bytes offset position)

section

variable {α : Type} {byte : α → UInt8} {ofByte? : UInt8 → Option α}

/-- After the code of `i` comes what names no kind. -/
theorem explained_of_unkind (hnumbering : Numbering byte ofByte?) (i : Instruction)
    (hkinds : ∀ other : Instruction, other.opcode = i.opcode → ∃ kind, other.encode[1]? = some (byte kind))
    (hfirst : bytes[offset]? = some i.opcode.byte)
    (hsecond : ∀ second, bytes[offset + 1]? = some second → ofByte? second = none)
    (hdecode : decode bytes offset = .error (refusal bytes offset 1)) : Explained bytes offset := by
  refine .inr ⟨1, breaks_one i hdecode hfirst fun other hother hbyte => ?_, hdecode⟩
  obtain ⟨kind, hkind⟩ := hkinds other hother
  have hnone := hsecond _ (hbyte.trans hkind)
  rw [hnumbering.written] at hnone
  cases hnone

/-- An instruction whose only operand is a kind. -/
theorem explained_of_kind (op : Opcode) (hnumbering : Numbering byte ofByte?) {make : α → Instruction} (default : α)
    (hopcode : ∀ kind, (make kind).opcode = op)
    (hencode : ∀ kind, (make kind).encode = [op.byte, byte kind])
    (hmade : ∀ other : Instruction, other.opcode = op → ∃ kind, other = make kind)
    (hfirst : bytes[offset]? = some op.byte)
    (hdecode : decode bytes offset = make <$> fetchKind ofByte? bytes (offset + 1)) : Explained bytes offset := by
  rcases fetchKind_cases ofByte? bytes offset 0 with ⟨second, kind, hsecond, hkind, hfetch⟩ | ⟨hsecond, hfetch⟩
  · obtain rfl := hnumbering.read hkind
    refine .inl ⟨make kind, by rw [hdecode, hfetch]; rfl, ?_⟩
    rw [hencode, drop_eq_cons hfirst, drop_eq_cons hsecond]
    exact List.prefix_append [_, _] _
  · refine explained_of_unkind hnumbering (make default) (fun other hother => ?_) (by rwa [hopcode]) hsecond
      (by rw [hdecode, hfetch]; rfl)
    obtain ⟨kind, rfl⟩ := hmade other (hother.trans (hopcode _))
    exact ⟨kind, by rw [hencode]; rfl⟩

/-- An instruction whose operands are a kind and one more byte. -/
theorem explained_of_kind_byte (op : Opcode) (hnumbering : Numbering byte ofByte?) {make : α → UInt8 → Instruction}
    (default : α)
    (hopcode : ∀ kind operand, (make kind operand).opcode = op)
    (hencode : ∀ kind operand, (make kind operand).encode = [op.byte, byte kind, operand])
    (hmade : ∀ other : Instruction, other.opcode = op → ∃ kind operand, other = make kind operand)
    (hfirst : bytes[offset]? = some op.byte)
    (hdecode : decode bytes offset =
      fetchKind ofByte? bytes (offset + 1) >>= fun kind => make kind <$> fetch bytes (offset + 2)) :
    Explained bytes offset := by
  rcases fetchKind_cases ofByte? bytes offset 0 with ⟨second, kind, hsecond, hkind, hfetch⟩ | ⟨hsecond, hfetch⟩
  · obtain rfl := hnumbering.read hkind
    rcases fetch_cases bytes (offset + 2) with ⟨operand, hthird, hfetchByte⟩ | ⟨hthird, hfetchByte⟩
    · refine .inl ⟨make kind operand, by rw [hdecode, hfetch, hfetchByte]; rfl, ?_⟩
      rw [hencode, drop_eq_cons hfirst, drop_eq_cons hsecond, drop_eq_cons hthird]
      exact List.prefix_append [_, _, _] _
    · have hrefused : decode bytes offset = .error (refusal bytes offset 2) := by
        rw [hdecode, hfetch, hfetchByte, refusal, hthird]
        rfl
      have hlength : 2 ≤ (make kind 0).length := by
        rw [← length_encode, hencode]
        exact Nat.le_succ 2
      refine .inr ⟨2, breaks_two (make kind 0) hrefused hlength (by rwa [hopcode]) ?_ hthird, hrefused⟩
      rw [hencode]
      exact hsecond
  · refine explained_of_unkind hnumbering (make default 0) (fun other hother => ?_) (by rwa [hopcode]) hsecond
      (by rw [hdecode, hfetch]; rfl)
    obtain ⟨kind, operand, rfl⟩ := hmade other (hother.trans (hopcode _ _))
    exact ⟨kind, by rw [hencode]; rfl⟩

/-- An instruction without operands. -/
theorem explained_of_alone {op : Opcode} (i : Instruction) (hencode : i.encode = [op.byte])
    (hfirst : bytes[offset]? = some op.byte) (hdecode : decode bytes offset = .ok i) : Explained bytes offset := by
  refine .inl ⟨i, hdecode, ?_⟩
  rw [hencode, drop_eq_cons hfirst]
  exact List.prefix_append [_] _

end

theorem decode_spec (bytes : Array UInt8) (offset : Nat) : Explained bytes offset := by
  rcases fetch_cases bytes offset with ⟨first, hfirst, hfetch⟩ | ⟨hfirst, hfetch⟩
  case inr =>
    have hdecode : decode bytes offset = .error (refusal bytes offset 0) := by
      simp [decode, hfetch, refusal, hfirst, bind, Except.bind]
    exact .inr ⟨0, breaks_zero hdecode (by simp [hfirst]), hdecode⟩
  cases hop : Opcode.ofByte? first with
  | none =>
    have hdecode : decode bytes offset = .error (refusal bytes offset 0) := by
      simp [decode, hfetch, hop, refusal, hfirst, bind, Except.bind]
    exact .inr ⟨0, breaks_zero hdecode (by simpa [hfirst] using hop), hdecode⟩
  | some op =>
    obtain rfl := Opcode.numbering.read hop
    cases op with
    | pushSelf => exact explained_of_alone pushSelf rfl hfirst (by rw [decode, hfetch]; rfl)
    | pop => exact explained_of_alone pop rfl hfirst (by rw [decode, hfetch]; rfl)
    | returnTop => exact explained_of_alone returnTop rfl hfirst (by rw [decode, hfetch]; rfl)
    | pushLiteral =>
      refine explained_of_kind_byte .pushLiteral LiteralKind.numbering .nil (fun _ _ => rfl) (fun _ _ => rfl) ?_ hfirst
        (by rw [decode, hfetch]; rfl)
      intro other hother
      cases other <;> cases hother
      exact ⟨_, _, rfl⟩
    | send =>
      refine explained_of_kind_byte .send SendKind.numbering .unary (fun _ _ => rfl) (fun _ _ => rfl) ?_ hfirst
        (by rw [decode, hfetch]; rfl)
      intro other hother
      cases other <;> cases hother
      exact ⟨_, _, rfl⟩
    | addSlot =>
      refine explained_of_kind .addSlot SlotKind.numbering .normal (fun _ => rfl) (fun _ => rfl) ?_ hfirst
        (by rw [decode, hfetch]; rfl)
      intro other hother
      cases other <;> cases hother
      exact ⟨_, rfl⟩

theorem decode_eq_ok_iff {i : Instruction} :
    decode bytes offset = .ok i ↔ i.encode <+: bytes.toList.drop offset := by
  refine ⟨fun h => ?_, decode_of_isPrefix⟩
  rcases decode_spec bytes offset with ⟨found, hfound, hprefix⟩ | ⟨position, -, herror⟩
  · rw [h] at hfound
    cases hfound
    exact hprefix
  · rw [h] at herror
    cases herror

theorem decode_eq_error_iff {fault : Fault} :
    decode bytes offset = .error fault ↔
      ∃ position, Breaks bytes offset position ∧ fault = refusal bytes offset position := by
  rcases decode_spec bytes offset with ⟨i, hdecode, hprefix⟩ | ⟨position, hbreaks, hdecode⟩
  · rw [hdecode]
    exact ⟨nofun, fun ⟨_, hbreaks, _⟩ => absurd hprefix (hbreaks.unread i)⟩
  · rw [hdecode]
    constructor
    · intro h
      cases h
      exact ⟨position, hbreaks, rfl⟩
    · rintro ⟨other, hother, rfl⟩
      rw [hbreaks.unique hother]

theorem stream_encode_all (instructions : List Instruction) :
    stream (instructions.flatMap encode).toArray 0 = (place 0 instructions, none) := by
  have hread := @stream_encode_append instructions (instructions.flatMap encode).toArray [] [] (by simp)
  have hend : stream (instructions.flatMap encode).toArray (instructions.flatMap encode).length = ([], none) :=
    stream_of_size_le (Nat.le_refl _)
  rwa [List.nil_append, hend, List.append_nil] at hread

/-- Instructions written one after the other are read back, each at its offset, to exactly where they end, and reading
goes on with whatever follows. At any offset an instruction is read if and only if its bytes stand there; where none
stands, the fault is that of the first byte that no instruction has in its place. -/
theorem stream_faithful :
    (∀ (instructions : List Instruction) (back : List UInt8),
      let written := instructions.flatMap encode
      let bytes := (written ++ back).toArray
      written.length = (instructions.map length).sum ∧
        stream bytes 0 = (place 0 instructions ++ (stream bytes written.length).1, (stream bytes written.length).2) ∧
        stream written.toArray 0 = (place 0 instructions, none)) ∧
      ∀ (bytes : Array UInt8) (offset : Nat),
        (∀ i : Instruction, decode bytes offset = .ok i ↔ i.encode <+: bytes.toList.drop offset) ∧
        (∀ i : Instruction, i.encode.length = i.length) ∧
        ∀ fault, decode bytes offset = .error fault ↔
          ∃ position, Breaks bytes offset position ∧ fault = refusal bytes offset position := by
  refine ⟨fun instructions back => ⟨length_flatMap_encode instructions, ?_, stream_encode_all instructions⟩,
    fun bytes offset => ⟨fun _ => decode_eq_ok_iff, length_encode, fun _ => decode_eq_error_iff⟩⟩
  exact @stream_encode_append instructions _ [] back rfl

/-- A kind that does not exist is reported before the operand that is missing after it. -/
example : decode #[3, 2] 0 = .error (.truncatedCode 2) ∧ decode #[3, 9] 0 = .error (.invalidOperand 1 9) := by decide

end Instruction

end ProtoVm
