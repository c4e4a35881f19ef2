import ProtoVm.Proofs.InstructionStream

/-!
# Lines of text

No line of a listing has a line break in it, whatever texts and names the unit contains: numbers have none, and quoting
writes a line break as two other characters.
-/

namespace ProtoVm

namespace Text

/-- The text has no line break. -/
def OneLine (s : String) : Prop := '\n' ∉ s.toList

instance (s : String) : Decidable (OneLine s) := inferInstanceAs (Decidable ('\n' ∉ s.toList))

theorem OneLine.append {s t : String} (hs : OneLine s) (ht : OneLine t) : OneLine (s ++ t) := by
  rw [OneLine, String.toList_append, List.mem_append]
  exact fun h => h.elim hs ht

theorem oneLine_join {texts : List String} (h : ∀ s ∈ texts, OneLine s) : OneLine (String.join texts) := by
  intro hmem
  rw [String.toList_join, List.mem_flatMap] at hmem
  obtain ⟨s, hs, hbreak⟩ := hmem
  exact h s hs hbreak

theorem oneLine_intercalate {separator : String} (hseparator : OneLine separator) {texts : List String}
    (h : ∀ s ∈ texts, OneLine s) : OneLine (separator.intercalate texts) := by
  induction texts with
  | nil => simp [OneLine]
  | cons first rest ih =>
    obtain ⟨hfirst, hrest⟩ := List.forall_mem_cons.1 h
    cases rest with
    | nil => simpa [String.intercalate_singleton] using hfirst
    | cons second rest =>
      rw [String.intercalate_cons_cons]
      exact (hfirst.append hseparator).append (ih hrest)

theorem oneLine_ofList {cs : List Char} (h : ∀ c ∈ cs, c ≠ '\n') : OneLine (String.ofList cs) := by
  rw [OneLine, String.toList_ofList]
  exact fun hbreak => h _ hbreak rfl

theorem oneLine_replicate {c : Char} (hc : c ≠ '\n') (n : Nat) : OneLine (String.ofList (List.replicate n c)) :=
  oneLine_ofList fun _ h => List.eq_of_mem_replicate h ▸ hc

theorem OneLine.padLeft {s : String} (h : OneLine s) {fill : Char} (hfill : fill ≠ '\n') (width : Nat) :
    OneLine (padLeft width fill s) :=
  (oneLine_replicate hfill _).append h

/-! ## Numbers -/

theorem digitChar_ne_newline (n : Nat) : n.digitChar ≠ '\n' := by
  fun_cases Nat.digitChar n <;> decide

theorem newline_notMem_toDigits {base : Nat} (hbase : 1 < base) (n : Nat) : '\n' ∉ base.toDigits n := by
  induction n using Nat.strongRecOn with
  | ind n ih =>
    rw [Nat.toDigits_eq_if hbase]
    split
    · rw [List.mem_singleton]
      exact (digitChar_ne_newline n).symm
    · rename_i hge
      have hrest := ih (n / base) (Nat.div_lt_self (by omega) hbase)
      rw [List.mem_append, List.mem_singleton]
      exact fun h => h.elim hrest (digitChar_ne_newline _).symm

theorem oneLine_nat (n : Nat) : OneLine (toString n) := by
  rw [OneLine, Nat.toString_eq_repr, Nat.toList_repr]
  exact newline_notMem_toDigits (by decide) n

theorem oneLine_hex (n : Nat) : OneLine (hex n) := by
  rw [OneLine, hex, String.toList_ofList]
  exact newline_notMem_toDigits (by decide) n

theorem oneLine_int (n : Int) : OneLine (toString n) := by
  cases n with
  | ofNat n => exact oneLine_nat n
  | negSucc n => exact OneLine.append (s := "-") (by decide) (oneLine_nat (n + 1))

theorem oneLine_hexByte (b : UInt8) : OneLine (hexByte b) :=
  OneLine.append (s := "0x") (by decide) ((oneLine_hex _).padLeft (by decide) 2)

theorem oneLine_offset (n : Nat) : OneLine (offset n) := (oneLine_nat n).padLeft (by decide) 4

/-! ## Quoted texts -/

theorem oneLine_quoteChar (c : Char) : OneLine (quoteChar c) := by
  unfold quoteChar
  split
  iterate 6 decide
  · rename_i hnewline _ _
    split
    · exact (OneLine.append (s := "\\u\x7b") (by decide) (oneLine_hex _)).append (by decide)
    · rw [OneLine, String.toList_singleton, List.mem_singleton]
      exact fun h => hnewline h.symm

theorem oneLine_quote (s : String) : OneLine (quote s) := by
  refine (OneLine.append (s := "\"") (by decide) (oneLine_join fun t ht => ?_)).append (by decide)
  obtain ⟨c, -, rfl⟩ := List.mem_map.1 ht
  exact oneLine_quoteChar c

theorem oneLine_quoteList (texts : List String) : OneLine (quoteList texts) := by
  refine (OneLine.append (s := "[") (by decide) (oneLine_intercalate (by decide) fun t ht => ?_)).append (by decide)
  obtain ⟨s, -, rfl⟩ := List.mem_map.1 ht
  exact oneLine_quote s

end Text

namespace Decimal

open Text

theorem oneLine_sign (negative : Bool) : OneLine (sign negative) := by cases negative <;> decide

theorem oneLine_positional (d : Decimal) : OneLine d.positional := by
  unfold positional zeros
  have hdigits := oneLine_nat d.digits
  dsimp only
  split
  · exact hdigits.append (oneLine_replicate (by decide) _)
  · -- the digits on both sides of the point are among those before they were taken apart
    have hpadded (n : Nat) : OneLine (String.ofList (List.replicate n '0') ++ toString d.digits) :=
      (oneLine_replicate (by decide) n).append hdigits
    refine (OneLine.append (OneLine.append ?_ ?_) ?_)
    · rw [OneLine, String.toList_ofList]
      exact fun h => hpadded _ (List.mem_of_mem_take h)
    · decide
    · rw [OneLine, String.toList_ofList]
      exact fun h => hpadded _ (List.mem_of_mem_drop h)

theorem oneLine_text (x : Float) : OneLine (text x) := by
  unfold text
  dsimp only
  split
  · decide
  · exact (oneLine_sign _).append (by decide)
  · exact (oneLine_sign _).append (oneLine_positional _)

end Decimal

/-! ## Instructions and faults -/

theorem oneLine_indentation (depth : Nat) : Text.OneLine (indentation depth) :=
  Text.oneLine_replicate (by decide) _

theorem LiteralKind.oneLine_name (kind : LiteralKind) : Text.OneLine kind.name := by cases kind <;> decide

theorem SendKind.oneLine_name (kind : SendKind) : Text.OneLine kind.name := by cases kind <;> decide

theorem SlotKind.oneLine_name (kind : SlotKind) : Text.OneLine kind.name := by cases kind <;> decide

theorem ObjectKind.oneLine_name (kind : ObjectKind) : Text.OneLine kind.name := by cases kind <;> decide

theorem Instruction.oneLine_text (i : Instruction) : Text.OneLine i.text := by
  have hblank : Text.OneLine " " := by decide
  cases i with
  | pushLiteral kind index =>
    have hname : Text.OneLine "PUSH_LITERAL" := by decide
    exact (((hname.append hblank).append kind.oneLine_name).append hblank).append (Text.oneLine_nat _)
  | send kind count =>
    have hname : Text.OneLine "SEND" := by decide
    exact (((hname.append hblank).append kind.oneLine_name).append hblank).append (Text.oneLine_nat _)
  | addSlot kind =>
    have hname : Text.OneLine "ADD_SLOT" := by decide
    exact (hname.append hblank).append kind.oneLine_name
  | pushSelf => decide
  | pop => decide
  | returnTop => decide

/-- What is said of bytes that are no instruction. -/
theorem Instruction.oneLine_refusal (bytes : Array UInt8) (offset position : Nat) :
    Text.OneLine (refusal bytes offset position).message := by
  unfold refusal
  split
  · exact .append (by decide) (Text.oneLine_nat _)
  · split
    · exact .append (by decide) (Text.oneLine_hexByte _)
    · exact ((Text.OneLine.append (by decide) (Text.oneLine_hexByte _)).append (by decide)).append (Text.oneLine_nat _)

theorem Instruction.exists_refusal_of_stream {bytes : Array UInt8} {offset stop : Nat} {fault : Fault}
    (h : (stream bytes offset).2 = some (stop, fault)) : ∃ position, fault = refusal bytes stop position := by
  fun_induction stream bytes offset with
  | case1 offset _ fault' hdecode =>
    cases h
    obtain ⟨position, -, hfault⟩ := decode_eq_error_iff.1 hdecode
    exact ⟨position, hfault⟩
  | case2 offset _ i _ rest stop' hrest ih =>
    rw [hrest] at ih
    exact ih h
  | case3 => cases h

/-! ## Lines -/

def LiteralNote.OneLine (note : LiteralNote) : Prop :=
  Text.OneLine note.text ∧ ∀ line ∈ note.below, Text.OneLine line

theorem Instruction.oneLine_line {notes : List LiteralNote} (hnotes : ∀ note ∈ notes, note.OneLine) (depth : Nat)
    (placed : Placed) : ∀ line ∈ Instruction.line depth notes placed, Text.OneLine line := by
  obtain ⟨offset, i⟩ := placed
  have hhead : Text.OneLine (indentation depth ++ Text.offset offset ++ " " ++ i.text) :=
    (((oneLine_indentation depth).append (Text.oneLine_offset offset)).append (by decide)).append i.oneLine_text
  intro line hline
  unfold Instruction.line at hline
  dsimp only at hline
  split at hline
  · rename_i note hnote
    obtain ⟨htext, hbelow⟩ : note.OneLine := by
      refine hnotes note ?_
      split at hnote
      · exact List.mem_of_getElem? hnote
      · cases hnote
    rcases List.mem_cons.1 hline with rfl | hline
    · exact (hhead.append (by decide)).append htext
    · exact hbelow line hline
  · obtain rfl := List.mem_singleton.1 hline
    exact hhead

mutual

theorem Literal.oneLine_note (depth : Nat) (l : Literal) : (l.note depth).OneLine := by
  have hobject (kind : ObjectKind) (params : List String) :
      Text.OneLine (kind.name ++ " " ++ Text.quoteList params) :=
    (kind.oneLine_name.append (by decide)).append (Text.oneLine_quoteList params)
  match l with
  | .int n => exact ⟨Text.oneLine_int n, nofun⟩
  | .float x => exact ⟨Decimal.oneLine_text x, nofun⟩
  | .text s => exact ⟨Text.oneLine_quote s, nofun⟩
  | .object kind params none => exact ⟨hobject kind params, nofun⟩
  | .object kind params (some code) => exact ⟨hobject kind params, Code.oneLine_lines (depth + 1) code⟩
termination_by structural l

theorem oneLine_literalNotes (depth : Nat) (literals : List Literal) :
    ∀ note ∈ literalNotes depth literals, note.OneLine := by
  match literals with
  | [] => exact nofun
  | l :: rest => exact List.forall_mem_cons.2 ⟨l.oneLine_note depth, oneLine_literalNotes depth rest⟩
termination_by structural literals

/-- A line of a listing is one line of text. -/
theorem Code.oneLine_lines (depth : Nat) (code : Code) : ∀ line ∈ code.lines depth, Text.OneLine line := by
  match code with
  | ⟨bytes, literals, finalized⟩ =>
    have hnotes := oneLine_literalNotes depth literals
    intro line hline
    have hlisted (hline : line ∈ (Instruction.stream bytes 0).1.flatMap
        (Instruction.line depth (literalNotes depth literals))) : Text.OneLine line := by
      obtain ⟨placed, -, hplaced⟩ := List.mem_flatMap.1 hline
      exact Instruction.oneLine_line hnotes depth placed line hplaced
    unfold Code.lines at hline
    dsimp only at hline
    split at hline
    · exact hlisted hline
    · rename_i stop fault hstop
      rcases List.mem_append.1 hline with hline | hline
      · exact hlisted hline
      · obtain rfl := List.mem_singleton.1 hline
        obtain ⟨position, rfl⟩ := Instruction.exists_refusal_of_stream hstop
        exact (((((oneLine_indentation depth).append (Text.oneLine_offset stop)).append (by decide)).append
          (Instruction.oneLine_refusal bytes stop position)).append (by decide))
termination_by structural code

end

end ProtoVm
