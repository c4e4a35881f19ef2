import Mathlib.Data.String.Basic
import ProtoVm.Selector

/-!
# Selectors that call blocks

A text is read in exactly one way as keywords, each closed by a colon, and a rest without one. A selector calls a block
just if it is `value`, or if it is written as a first keyword `value:` or `with:` and one `With:` for each further
argument.
-/

namespace ProtoVm.Selector

variable {text rest : List Char} {keywords : List (List Char)}

/-- Keywords as they are written, each with its colon. -/
def written (keywords : List (List Char)) : List Char := keywords.flatMap (· ++ [':'])

/-! ## Splitting -/

theorem split_colon (text : List Char) : split (':' :: text) = ([] :: (split text).1, (split text).2) := rfl

/-- A character that is no colon belongs to the first keyword, or to the rest if there is no keyword. -/
theorem split_cons {c : Char} (hc : c ≠ ':') (text : List Char) :
    split (c :: text) =
      match (split text).1 with
      | [] => ([], c :: (split text).2)
      | keyword :: others => ((c :: keyword) :: others, (split text).2) := by
  cases hsplit : split text with
  | mk keywords rest => cases keywords <;> simp [split, hsplit]

/-- What is split is put together again, and no colon is left in the parts. -/
theorem split_spec (text : List Char) :
    text = written (split text).1 ++ (split text).2 ∧ (∀ keyword ∈ (split text).1, ':' ∉ keyword) ∧
      ':' ∉ (split text).2 := by
  induction text with
  | nil => exact ⟨rfl, nofun, List.not_mem_nil⟩
  | cons c text ih =>
    obtain ⟨htext, hkeywords, hrest⟩ := ih
    by_cases hc : c = ':'
    · subst hc
      rw [split_colon]
      refine ⟨?_, ?_, hrest⟩
      · rw [written, List.flatMap_cons, List.nil_append, List.append_assoc, ← written, ← htext]
        rfl
      · rintro keyword (_ | ⟨_, hkeyword⟩)
        · exact List.not_mem_nil
        · exact hkeywords keyword hkeyword
    · rw [split_cons hc]
      cases hsplit : (split text).1 with
      | nil =>
        rw [hsplit] at htext
        exact ⟨congrArg (c :: ·) htext, nofun, by simp [hrest, Ne.symm hc]⟩
      | cons keyword others =>
        rw [hsplit] at htext hkeywords
        refine ⟨congrArg (c :: ·) htext, ?_, hrest⟩
        rintro found (_ | ⟨_, hfound⟩)
        · simp [hkeywords keyword List.mem_cons_self, Ne.symm hc]
        · exact hkeywords found (List.mem_cons_of_mem _ hfound)

theorem split_of_not_mem (h : ':' ∉ text) : split text = ([], text) := by
  induction text with
  | nil => rfl
  | cons c text ih =>
    obtain ⟨hc, htext⟩ := not_or.1 (mt List.mem_cons.2 h)
    rw [split_cons (Ne.symm hc), ih htext]

theorem split_keyword {keyword : List Char} (h : ':' ∉ keyword) (text : List Char) :
    split (keyword ++ ':' :: text) = (keyword :: (split text).1, (split text).2) := by
  induction keyword with
  | nil => rfl
  | cons c keyword ih =>
    obtain ⟨hc, hkeyword⟩ := not_or.1 (mt List.mem_cons.2 h)
    rw [List.cons_append, split_cons (Ne.symm hc), ih hkeyword]

/-- Keywords that were written are found again. -/
theorem split_written (hkeywords : ∀ keyword ∈ keywords, ':' ∉ keyword) (hrest : ':' ∉ rest) :
    split (written keywords ++ rest) = (keywords, rest) := by
  induction keywords with
  | nil => exact split_of_not_mem hrest
  | cons keyword others ih =>
    obtain ⟨hkeyword, hothers⟩ := List.forall_mem_cons.1 hkeywords
    have htext : written (keyword :: others) ++ rest = keyword ++ ':' :: (written others ++ rest) := by
      simp [written]
    rw [htext, split_keyword hkeyword, ih hothers]

theorem keywords?_eq_some_iff {selector : String} :
    keywords? selector = some keywords ↔
      selector.toList = written keywords ∧ ∀ keyword ∈ keywords, ':' ∉ keyword := by
  constructor
  · intro h
    obtain ⟨htext, hkeywords, -⟩ := split_spec selector.toList
    unfold keywords? at h
    split at h
    · rename_i found hsplit
      cases h
      rw [hsplit] at htext hkeywords
      exact ⟨by rw [htext, List.append_nil], hkeywords⟩
    · cases h
  · rintro ⟨htext, hkeywords⟩
    have hsplit := split_written hkeywords (List.not_mem_nil (a := ':'))
    rw [List.append_nil] at hsplit
    rw [keywords?, htext, hsplit]

/-! ## Block calls -/

/-- The keywords of a block call: the first one, and one for each of `more` arguments after the first. -/
def callKeywords (first : String) (more : Nat) : List (List Char) := first.toList :: List.replicate more "With".toList

theorem toList_call (first : String) (more : Nat) :
    ((first ++ ":") ++ String.join (List.replicate more "With:")).toList = written (callKeywords first more) := by
  rw [String.toList_append, String.toList_append, String.toList_join, List.flatMap_replicate, written, callKeywords,
    List.flatMap_cons, List.flatMap_replicate]
  rfl

theorem callKeywords_unbroken {first : String} (h : first = "value" ∨ first = "with") {more : Nat} :
    ∀ keyword ∈ callKeywords first more, ':' ∉ keyword := by
  intro keyword hkeyword
  rcases List.mem_cons.1 hkeyword with rfl | hkeyword
  · rcases h with rfl | rfl <;> decide
  · rw [List.eq_of_mem_replicate hkeyword]
    decide

/-- With arguments a block is called by the keywords of a block call and nothing else. -/
theorem isBlockCall_succ_iff {selector : String} {more : Nat} :
    isBlockCall selector (more + 1) = true ↔
      ∃ first, (first = "value" ∨ first = "with") ∧ keywords? selector = some (callKeywords first more) := by
  rw [isBlockCall, if_neg (Nat.succ_ne_zero more)]
  constructor
  · intro h
    split at h
    · rename_i first others hkeywords
      simp only [Bool.and_eq_true, Bool.or_eq_true, beq_iff_eq, List.all_eq_true, Nat.add_right_cancel_iff] at h
      obtain ⟨⟨hcount, hfirst⟩, hothers⟩ := h
      obtain rfl : others = List.replicate more "With".toList := List.eq_replicate_iff.2 ⟨hcount, hothers⟩
      rcases hfirst with rfl | rfl
      · exact ⟨"value", .inl rfl, hkeywords⟩
      · exact ⟨"with", .inr rfl, hkeywords⟩
    · cases h
  · rintro ⟨first, hfirst, hkeywords⟩
    rw [hkeywords]
    rcases hfirst with rfl | rfl <;> simp [callKeywords]

/-- The selectors that call a block are `value` without arguments and, with arguments, `value:` or `with:` followed by
one `With:` for each argument after the first. -/
theorem isBlockCall_iff (selector : String) (argc : Nat) :
    isBlockCall selector argc = true ↔
      argc = 0 ∧ selector = "value" ∨
        1 ≤ argc ∧ ∃ first, (first = "value:" ∨ first = "with:") ∧
          selector = first ++ String.join (List.replicate (argc - 1) "With:") := by
  cases argc with
  | zero => simp [isBlockCall]
  | succ more =>
    have hcall {first : String} (hfirst : first = "value" ∨ first = "with") :
        keywords? selector = some (callKeywords first more) ↔
          selector = (first ++ ":") ++ String.join (List.replicate more "With:") := by
      rw [keywords?_eq_some_iff, ← toList_call, String.toList_inj]
      exact and_iff_left (callKeywords_unbroken hfirst)
    rw [isBlockCall_succ_iff]
    constructor
    · rintro ⟨first, hfirst, hkeywords⟩
      refine .inr ⟨Nat.succ_pos more, first ++ ":", ?_, (hcall hfirst).1 hkeywords⟩
      rcases hfirst with rfl | rfl
      · exact .inl rfl
      · exact .inr rfl
    · rintro (⟨hzero, -⟩ | ⟨-, first, rfl | rfl, hselector⟩)
      · exact absurd hzero (Nat.succ_ne_zero more)
      · exact ⟨"value", .inl rfl, (hcall (.inl rfl)).2 hselector⟩
      · exact ⟨"with", .inr rfl, (hcall (.inr rfl)).2 hselector⟩

/-- A colon too many leaves an empty keyword, and one too few leaves a rest. -/
example : isBlockCall "with::" 2 = false ∧ isBlockCall ":with:" 2 = false ∧ isBlockCall "with:With" 2 = false := by
  decide

end ProtoVm.Selector
