import ProtoVm.Code.Assembly
import ProtoVm.Code.Draft
import ProtoVm.Proofs.Assembled

/-!
# The literal pool

The pool of a draft only grows at its end and never past what one byte can name, so an index stays good. The index of
texts says exactly where each text is, and an edit that fails leaves no trace.
-/

namespace ProtoVm

theorem getElem?_concat_eq_some_iff {α : Type} {xs : List α} {x y : α} {i : Nat} :
    (xs ++ [x])[i]? = some y ↔ xs[i]? = some y ∨ i = xs.length ∧ x = y := by
  rcases Nat.lt_trichotomy i xs.length with hlt | rfl | hgt
  · rw [List.getElem?_append_left hlt]
    exact ⟨.inl, fun h => h.resolve_right fun hend => absurd hend.1 (Nat.ne_of_lt hlt)⟩
  · simp
  · have hleft : xs[i]? = none := List.getElem?_eq_none (Nat.le_of_lt hgt)
    rw [List.getElem?_eq_none (by rw [List.length_append, List.length_singleton]; omega), hleft]
    exact ⟨nofun, fun h => absurd (h.resolve_left nofun).1 (Nat.ne_of_gt hgt)⟩

theorem Entry.checkRange_eq {entry : Entry} {l : Literal} (h : entry.literal = .ok l) :
    entry.checkRange = l.checkRange := by
  cases entry with
  | int n => cases h; rfl
  | float x => cases h; rfl
  | text s => cases h; rfl
  | object kind params body =>
    cases body with
    | none => cases h; rfl
    | some lines =>
      obtain ⟨code, -, rfl⟩ := Entry.literal_object h
      rfl

namespace Draft

variable {draft next : Draft} {l : Literal} {i : Instruction}

/-- The draft after `l` has got an entry of its own. -/
def extend (draft : Draft) (l : Literal) : Draft :=
  append l (enter l draft.code.literals.length.toUInt8 draft)

/-- What holds of a draft at any time. -/
structure Sound (draft : Draft) : Prop where
  isOpen : draft.code.finalized = false
  bounded : draft.code.literals.length ≤ Code.poolLimit
  indexed (s : String) (index : UInt8) :
    draft.texts.lookup s = some index ↔ draft.code.literals[index.toNat]? = some (.text s)

/-! ## What an edit does -/

@[simp] theorem code_enter (l : Literal) (index : UInt8) (draft : Draft) : (enter l index draft).code = draft.code := by
  cases l <;> rfl

theorem code_extend (draft : Draft) (l : Literal) :
    (draft.extend l).code = { draft.code with literals := draft.code.literals ++ [l] } := by
  simp [extend, append]

theorem texts_extend (draft : Draft) (l : Literal) (s : String) (index : UInt8) :
    (draft.extend l).texts.lookup s = some index ↔
      (l = .text s ∧ index = draft.code.literals.length.toUInt8) ∨
        (l ≠ .text s ∧ draft.texts.lookup s = some index) := by
  cases l with
  | text t =>
    show (draft.texts.insert t _).lookup s = some index ↔ _
    by_cases heq : t = s
    · subst heq
      simp [eq_comm]
    · rw [AList.lookup_insert_ne (Ne.symm heq)]
      simp [heq]
  | _ => simp [extend, append, enter]

theorem indexOf?_eq_some_iff {index : UInt8} :
    draft.indexOf? l = some index ↔ ∃ s, l = .text s ∧ draft.texts.lookup s = some index := by
  cases l <;> simp [indexOf?]

/-- A literal is added in one of three ways: it is there, it gets the next entry, or there is no room for it. -/
theorem add_cases (draft : Draft) (l : Literal) :
    (∃ index, draft.indexOf? l = some index ∧ add l draft = .ok index draft) ∨
      draft.indexOf? l = none ∧ draft.code.literals.length < Code.poolLimit ∧
        add l draft = .ok draft.code.literals.length.toUInt8 (draft.extend l) ∨
      draft.indexOf? l = none ∧ Code.poolLimit ≤ draft.code.literals.length ∧
        add l draft = .error .poolOverflow draft := by
  unfold add
  rw [get_bind]
  cases hindex : draft.indexOf? l with
  | some index => exact .inl ⟨index, rfl, rfl⟩
  | none =>
    by_cases hroom : draft.code.literals.length < Code.poolLimit
    · have hnext : nextIndex draft = .ok draft.code.literals.length.toUInt8 draft := by
        unfold nextIndex
        rw [get_bind, if_pos hroom]
        rfl
      exact .inr (.inl ⟨rfl, hroom, bind_of_ok hnext⟩)
    · have hnext : nextIndex draft = .error .poolOverflow draft := by
        unfold nextIndex
        rw [get_bind, if_neg hroom]
        rfl
      exact .inr (.inr ⟨rfl, Nat.le_of_not_lt hroom, bind_of_error hnext⟩)

/-! ## Soundness -/

theorem toNat_toUInt8_of_lt {n : Nat} (h : n < Code.poolLimit) : n.toUInt8.toNat = n := by
  rw [UInt8.toNat_ofNat']
  exact Nat.mod_eq_of_lt h

namespace Sound

theorem empty : Sound {} := ⟨rfl, Nat.zero_le _, fun s index => by simp⟩

variable (h : draft.Sound)

include h

theorem lookup_of_getElem? {i : Nat} {s : String} (htext : draft.code.literals[i]? = some (.text s)) :
    i < Code.poolLimit ∧ draft.texts.lookup s = some i.toUInt8 := by
  have hlt := Nat.lt_of_lt_of_le (List.getElem?_eq_some_iff.1 htext).1 h.bounded
  exact ⟨hlt, (h.indexed s i.toUInt8).2 (by rwa [toNat_toUInt8_of_lt hlt])⟩

theorem distinct {i j : Nat} {s : String} (hi : draft.code.literals[i]? = some (.text s))
    (hj : draft.code.literals[j]? = some (.text s)) : i = j := by
  obtain ⟨hilt, hilookup⟩ := h.lookup_of_getElem? hi
  obtain ⟨hjlt, hjlookup⟩ := h.lookup_of_getElem? hj
  have heq := Option.some.inj (hilookup.symm.trans hjlookup)
  rw [← toNat_toUInt8_of_lt hilt, heq, toNat_toUInt8_of_lt hjlt]

theorem getElem?_of_indexOf? {index : UInt8} (hindex : draft.indexOf? l = some index) :
    draft.code.literals[index.toNat]? = some l := by
  obtain ⟨s, rfl, hlookup⟩ := indexOf?_eq_some_iff.1 hindex
  exact (h.indexed s index).1 hlookup

theorem indexOf?_eq_none_iff : draft.indexOf? l = none ↔ ∀ s, l = .text s → l ∉ draft.code.literals := by
  constructor
  · rintro hnone s rfl hmem
    obtain ⟨i, hi⟩ := List.mem_iff_getElem?.1 hmem
    have hlookup := (h.lookup_of_getElem? hi).2
    rw [show draft.texts.lookup s = none from hnone] at hlookup
    cases hlookup
  · intro hnew
    by_contra hsome
    obtain ⟨index, hindex⟩ := Option.ne_none_iff_exists'.1 hsome
    obtain ⟨s, hs, -⟩ := indexOf?_eq_some_iff.1 hindex
    exact hnew s hs (List.mem_of_getElem? (h.getElem?_of_indexOf? hindex))

theorem emit (i : Instruction) : Sound { draft with code := draft.code.emit i } := ⟨h.isOpen, h.bounded, h.indexed⟩

/-- A new entry keeps every text where the index says, since it is no text that was there before. -/
theorem extend (hnew : draft.indexOf? l = none) (hroom : draft.code.literals.length < Code.poolLimit) :
    (draft.extend l).Sound := by
  refine ⟨?_, ?_, fun s index => ?_⟩
  · rw [code_extend]
    exact h.isOpen
  · rw [code_extend, List.length_append]
    exact hroom
  · have hend : index = draft.code.literals.length.toUInt8 ↔ index.toNat = draft.code.literals.length := by
      rw [← UInt8.toNat_inj, toNat_toUInt8_of_lt hroom]
    rw [texts_extend, code_extend, getElem?_concat_eq_some_iff, ← hend, ← h.indexed]
    have hother : l = .text s → draft.texts.lookup s ≠ some index := by
      rintro rfl hsome
      rw [show draft.texts.lookup s = none from hnew] at hsome
      cases hsome
    tauto

end Sound

/-! ## Runs of edits -/

/-- No entry is left, and `l` is no text that has one already. -/
def Full (draft : Draft) (l : Literal) : Prop :=
  draft.code.literals.length = Code.poolLimit ∧ ∀ s, l = .text s → l ∉ draft.code.literals

/-- Why `l` cannot be pushed: an integer does not fit in a value, or there is no room for it. -/
def Refuses (draft : Draft) (l : Literal) (fault : Fault) : Prop :=
  (∃ n, l = .int n ∧ ¬(minFixnum ≤ n ∧ n ≤ maxFixnum) ∧ fault = .integerOverflow n) ∨
    (∀ n, l = .int n → minFixnum ≤ n ∧ n ≤ maxFixnum) ∧ draft.Full l ∧ fault = .poolOverflow

/-- A literal that is added has an entry, and the draft is sound again. -/
theorem Sound.add (h : draft.Sound) :
    Ends (add l) draft
      (fun index next => ¬draft.Full l ∧ next.Sound ∧ draft.code.literals <+: next.code.literals ∧
        next.code.bytes = draft.code.bytes ∧ next.code.literals[index.toNat]? = some l)
      (fun fault next => next = draft ∧ draft.Full l ∧ fault = .poolOverflow) := by
  unfold Ends
  rcases add_cases draft l with ⟨index, hindex, hadd⟩ | ⟨hnew, hroom, hadd⟩ | ⟨hnew, hfull, hadd⟩
  · rw [hadd]
    have hentry := h.getElem?_of_indexOf? hindex
    refine ⟨fun hfull => ?_, h, List.prefix_rfl, rfl, hentry⟩
    rw [h.indexOf?_eq_none_iff.2 hfull.2] at hindex
    cases hindex
  · rw [hadd]
    refine ⟨fun hfull => absurd hfull.1 (Nat.ne_of_lt hroom), h.extend hnew hroom, ?_, ?_, ?_⟩
    · rw [code_extend]
      exact List.prefix_append _ _
    · rw [code_extend]
    · rw [code_extend, toNat_toUInt8_of_lt hroom, List.getElem?_concat_length]
  · rw [hadd]
    exact ⟨rfl, ⟨Nat.le_antisymm h.bounded hfull, h.indexOf?_eq_none_iff.1 hnew⟩, rfl⟩

theorem checkRange_cases (l : Literal) :
    l.checkRange = .ok () ∧ (∀ n, l = .int n → minFixnum ≤ n ∧ n ≤ maxFixnum) ∨
      ∃ n, l = .int n ∧ ¬(minFixnum ≤ n ∧ n ≤ maxFixnum) ∧ l.checkRange = .error (.integerOverflow n) := by
  cases l with
  | int n =>
    by_cases hrange : minFixnum ≤ n ∧ n ≤ maxFixnum
    · refine .inl ⟨?_, fun m hm => Literal.int.inj hm ▸ hrange⟩
      simp [Literal.checkRange, Fixnum.ofInt?, hrange]
    · refine .inr ⟨n, rfl, hrange, ?_⟩
      simp [Literal.checkRange, Fixnum.ofInt?, hrange]
  | _ => exact .inl ⟨rfl, nofun⟩

/-- A literal that is pushed gets one instruction, which names its entry. -/
theorem Sound.push (h : draft.Sound) :
    Ends (push l) draft
      (fun _ next => (∀ fault, ¬draft.Refuses l fault) ∧ next.Sound ∧ draft.code.literals <+: next.code.literals ∧
        ∃ index : UInt8, next.code.bytes = draft.code.bytes ++ (Instruction.pushLiteral l.kind index).encode ∧
          next.code.literals[index.toNat]? = some l)
      (fun fault next => next = draft ∧ draft.Refuses l fault) := by
  unfold Draft.push
  rcases checkRange_cases l with ⟨hcheck, hrange⟩ | ⟨n, rfl, hrange, hcheck⟩
  · rw [hcheck, ends_bind, ends_liftExcept]
    refine ⟨fun _ _ => ?_, nofun⟩
    rw [ends_bind]
    refine h.add.mono ?_ ?_
    · rintro index next ⟨hroom, hsound, hgrows, hbytes, hentry⟩
      refine ⟨?_, hsound.emit _, hgrows, index, ?_, hentry⟩
      · rintro fault (⟨n, hn, hout, -⟩ | ⟨-, hfull, -⟩)
        · exact hout (hrange n hn)
        · exact hroom hfull
      · rw [← hbytes]
        rfl
    · rintro fault next ⟨rfl, hfull, rfl⟩
      exact ⟨rfl, .inr ⟨hrange, hfull, rfl⟩⟩
  · rw [hcheck, ends_bind, ends_liftExcept]
    refine ⟨nofun, fun fault hfault => ⟨rfl, .inl ⟨n, rfl, hrange, ?_⟩⟩⟩
    exact (Except.error.inj hfault).symm

theorem Sound.run (h : draft.Sound) (edit : Edit) :
    Ends edit.run draft (fun _ next => next.Sound ∧ draft.code.literals <+: next.code.literals)
      (fun _ next => next = draft) := by
  cases edit with
  | emit i => exact ⟨h.emit i, List.prefix_rfl⟩
  | add l =>
    show Ends ((fun _ => ()) <$> Draft.add l) draft _ _
    rw [ends_map]
    exact h.add.mono (fun _ _ hnext => ⟨hnext.2.1, hnext.2.2.1⟩) fun _ _ hnext => hnext.1
  | push l => exact h.push.mono (fun _ _ hnext => ⟨hnext.2.1, hnext.2.2.1⟩) fun _ _ hnext => hnext.1

theorem Sound.after (h : draft.Sound) (edit : Edit) :
    (draft.after edit).Sound ∧ draft.code.literals <+: (draft.after edit).code.literals := by
  unfold Draft.after
  cases hrun : edit.run draft with
  | ok _ next => exact (h.run edit).of_ok hrun
  | error fault next =>
    obtain rfl := (h.run edit).of_error hrun
    exact ⟨h, List.prefix_rfl⟩

/-- Whatever is done to a draft, its entries stay where they are. -/
theorem Sound.afterAll (h : draft.Sound) (edits : List Edit) :
    (draft.afterAll edits).Sound ∧ draft.code.literals <+: (draft.afterAll edits).code.literals := by
  induction edits generalizing draft with
  | nil => exact ⟨h, List.prefix_rfl⟩
  | cons edit edits ih =>
    obtain ⟨hsound, hgrows⟩ := h.after edit
    obtain ⟨hlast, hrest⟩ := ih hsound
    exact ⟨hlast, hgrows.trans hrest⟩

theorem Sound.kept (h : draft.Sound) {index : Nat} (hentry : draft.code.literals[index]? = some l) (edits : List Edit) :
    (draft.afterAll edits).code.literals[index]? = some l := by
  obtain ⟨hlt, rfl⟩ := List.getElem?_eq_some_iff.1 hentry
  exact List.prefix_iff_getElem?.1 (h.afterAll edits).2 index hlt

/-! ## Lines of the assembler -/

/-- What an edit leaves of the unit. -/
def codeOf {α : Type} : EStateM.Result Fault Draft α → Except Fault Code
  | .ok _ next => .ok next.code
  | .error fault _ => .error fault

/-- The index finds a text where a search of the pool does. -/
theorem Sound.pooled?_eq (h : draft.Sound) (l : Literal) :
    draft.code.pooled? l = (draft.indexOf? l).map (·.toNat) := by
  cases l with
  | text s =>
    show draft.code.literals.findIdx? (·.isText s) = (draft.texts.lookup s).map (·.toNat)
    have hisText (l : Literal) : l.isText s = true ↔ l = .text s := by cases l <;> simp [Literal.isText]
    cases hlookup : draft.texts.lookup s with
    | none =>
      refine List.findIdx?_eq_none_iff.2 fun l hl => Bool.eq_false_iff.2 fun htext => ?_
      obtain ⟨i, hi⟩ := List.mem_iff_getElem?.1 hl
      rw [(hisText l).1 htext] at hi
      rw [(h.lookup_of_getElem? hi).2] at hlookup
      cases hlookup
    | some index =>
      have hentry := (h.indexed s index).1 hlookup
      obtain ⟨hlt, hget⟩ := List.getElem?_eq_some_iff.1 hentry
      refine List.findIdx?_eq_some_iff_getElem.2 ⟨hlt, (hisText _).2 hget, fun j hj htext => ?_⟩
      have hjlt : j < draft.code.literals.length := Nat.lt_trans hj hlt
      have hj' : draft.code.literals[j]? = some (.text s) := by
        rw [List.getElem?_eq_getElem hjlt, (hisText _).1 htext]
      exact absurd (h.distinct hj' hentry) (Nat.ne_of_lt hj)
  | _ => rfl

theorem Sound.addLiteral_eq (h : draft.Sound) (l : Literal) :
    draft.code.addLiteral l =
      match Draft.add l draft with
      | .ok index next => .ok (index, next.code)
      | .error fault _ => .error fault := by
  unfold Code.addLiteral
  rw [h.pooled?_eq]
  rcases add_cases draft l with ⟨index, hindex, hadd⟩ | ⟨hnew, hroom, hadd⟩ | ⟨hnew, hfull, hadd⟩
  · rw [hindex, hadd]
    simp
  · rw [hnew, hadd]
    simp [hroom, code_extend]
  · rw [hnew, hadd]
    simp [Nat.not_lt.2 hfull]

/-- A pool line does to the unit what adding its literal to the draft does. -/
theorem Sound.appendLine_pool (h : draft.Sound) {entry : Entry} (hl : entry.literal = .ok l) :
    draft.code.appendLine (.pool entry) = codeOf (Draft.add l draft) := by
  have hline : draft.code.appendLine (.pool entry) = (fun added => added.2) <$> draft.code.addLiteral l := by
    rw [Code.appendLine, hl]
    rfl
  rw [hline, h.addLiteral_eq]
  cases Draft.add l draft <;> rfl

/-- A push line does to the unit what pushing its literal does to the draft. -/
theorem Sound.appendLine_push (h : draft.Sound) {entry : Entry} (hl : entry.literal = .ok l) :
    draft.code.appendLine (.push entry) = codeOf (Draft.push l draft) := by
  have hline : draft.code.appendLine (.push entry) = (do l.checkRange; draft.code.pushLiteral l) := by
    rw [Code.appendLine, hl, Entry.checkRange_eq hl]
    rfl
  rw [hline]
  unfold Draft.push
  cases hcheck : l.checkRange with
  | error fault => rfl
  | ok =>
    show draft.code.pushLiteral l = codeOf ((Draft.add l >>= fun index => Draft.emit (.pushLiteral l.kind index)) draft)
    unfold Code.pushLiteral
    rw [h.addLiteral_eq]
    cases hadd : Draft.add l draft with
    | ok index next => rw [bind_of_ok hadd]; rfl
    | error fault next => rw [bind_of_error hadd]; rfl

/-! ## The discipline of the pool -/

/-- What holds of a draft, whatever is done to it later. -/
structure Disciplined (draft : Draft) : Prop extends draft.Sound where
  /-- The pool grows only at its end. -/
  grows (later : List Edit) : draft.code.literals <+: (draft.afterAll later).code.literals
  distinct (i j : Nat) (s : String) :
    draft.code.literals[i]? = some (.text s) → draft.code.literals[j]? = some (.text s) → i = j
  /-- An index once given names the same literal from then on. -/
  added (l : Literal) (index : UInt8) (next : Draft) : add l draft = .ok index next →
    next.code.bytes = draft.code.bytes ∧
      ∀ later, (next.afterAll later).code.literals[index.toNat]? = some l
  pushed (l : Literal) (next : Draft) : push l draft = .ok () next →
    ∃ index : UInt8, next.code.bytes = draft.code.bytes ++ (Instruction.pushLiteral l.kind index).encode ∧
      ∀ later, (next.afterAll later).code.literals[index.toNat]? = some l
  /-- An edit that fails leaves no trace. -/
  restored (edit : Edit) (fault : Fault) (next : Draft) : edit.run draft = .error fault next → next = draft
  add_eq_error_iff (l : Literal) (fault : Fault) :
    add l draft = .error fault draft ↔ draft.Full l ∧ fault = .poolOverflow
  push_eq_error_iff (l : Literal) (fault : Fault) : push l draft = .error fault draft ↔ draft.Refuses l fault
  /-- A text that has an entry can be pushed even if the pool is full. -/
  shared (s : String) : .text s ∈ draft.code.literals → ∃ next, push (.text s) draft = .ok () next
  /-- The assembler writes the same units. -/
  assembled (entry : Entry) (l : Literal) : entry.literal = .ok l →
    draft.code.appendLine (.pool entry) = codeOf (add l draft) ∧
      draft.code.appendLine (.push entry) = codeOf (push l draft)

theorem Sound.add_eq_error_iff (h : draft.Sound) {fault : Fault} :
    Draft.add l draft = .error fault draft ↔ draft.Full l ∧ fault = .poolOverflow := by
  constructor
  · exact fun hadd => (h.add.of_error hadd).2
  · rintro ⟨hfull, rfl⟩
    cases hadd : Draft.add l draft with
    | ok index next => exact absurd hfull (h.add.of_ok hadd).1
    | error fault next =>
      obtain ⟨rfl, -, rfl⟩ := h.add.of_error hadd
      rfl

theorem Refuses.unique {fault other : Fault} (h : draft.Refuses l fault) (hother : draft.Refuses l other) :
    fault = other := by
  rcases h with ⟨n, rfl, hout, rfl⟩ | ⟨hrange, -, rfl⟩ <;> rcases hother with ⟨m, hm, hout', rfl⟩ | ⟨hrange', -, rfl⟩
  · rw [Literal.int.inj hm]
  · exact absurd (hrange' n rfl) hout
  · exact absurd (hrange m hm) hout'
  · rfl

theorem Sound.push_eq_error_iff (h : draft.Sound) {fault : Fault} :
    Draft.push l draft = .error fault draft ↔ draft.Refuses l fault := by
  constructor
  · exact fun hpush => (h.push.of_error hpush).2
  · intro hrefuses
    cases hpush : Draft.push l draft with
    | ok _ next => exact absurd hrefuses ((h.push.of_ok hpush).1 fault)
    | error other next =>
      obtain ⟨rfl, hother⟩ := h.push.of_error hpush
      rw [hrefuses.unique hother]

theorem Sound.disciplined (h : draft.Sound) : draft.Disciplined where
  toSound := h
  grows later := (h.afterAll later).2
  distinct _ _ _ := h.distinct
  added l index next hadd := by
    obtain ⟨-, hsound, -, hbytes, hentry⟩ := h.add.of_ok hadd
    exact ⟨hbytes, hsound.kept hentry⟩
  pushed l next hpush := by
    obtain ⟨-, hsound, -, index, hbytes, hentry⟩ := h.push.of_ok hpush
    exact ⟨index, hbytes, hsound.kept hentry⟩
  restored edit fault next hrun := (h.run edit).of_error hrun
  add_eq_error_iff _ _ := h.add_eq_error_iff
  push_eq_error_iff _ _ := h.push_eq_error_iff
  shared s hmem := by
    cases hpush : Draft.push (.text s) draft with
    | ok _ next => exact ⟨next, rfl⟩
    | error fault next =>
      obtain ⟨-, ⟨n, hn, -, -⟩ | ⟨-, hfull, -⟩⟩ := h.push.of_error hpush
      · cases hn
      · exact absurd hmem (hfull.2 s rfl)
  assembled entry l hl := ⟨h.appendLine_pool hl, h.appendLine_push hl⟩

/-- Whatever has been done to a new draft, its pool is in order and stays so. -/
theorem disciplined_afterAll (edits : List Edit) : (afterAll {} edits).Disciplined :=
  (Sound.empty.afterAll edits).1.disciplined

end Draft

end ProtoVm
