import ProtoVm.Proofs.Making

/-!
# What natives hand back

A native that gets values which may be stored replies with such values.
-/

namespace ProtoVm

def Reply.values : Reply → List Value
  | .answer value | .halt value | .raise value | .handler value => [value]
  | .restore token value => [token, value]

namespace Native

open Heap

variable {policy : Policy} {roots : Roots} {heap : Heap} {frames : List Frame}

theorem keeps_mismatch {α : Type} {P : α → Heap → Prop} (hs : heap.Sound policy roots frames) (expected : Expected)
    (value : Value) : Keeps policy roots frames (mismatch roots expected value) heap P := .get (.throw hs)

theorem keeps_firstArg (hs : heap.Sound policy roots frames) (args : List Value) :
    Keeps policy roots frames (firstArg args) heap fun value _ => value ∈ args := by
  unfold firstArg
  split
  · exact .pure hs List.mem_cons_self
  · exact .throw hs

theorem keeps_toFixnum (hs : heap.Sound policy roots frames) (value : Value) :
    Keeps policy roots frames (toFixnum roots value) heap fun _ _ => True := by
  unfold toFixnum
  split
  · exact .pure hs trivial
  · exact keeps_mismatch hs .fixnum value

theorem keeps_toFloat (hs : heap.Sound policy roots frames) (value : Value) :
    Keeps policy roots frames (toFloat roots value) heap fun _ _ => True := by
  refine .get ?_
  split
  · exact .pure hs trivial
  · exact keeps_mismatch hs .float value

theorem keeps_toText (hs : heap.Sound policy roots frames) (value : Value) :
    Keeps policy roots frames (toText roots value) heap fun _ _ => True := by
  refine .get ?_
  split
  · exact .pure hs trivial
  · exact keeps_mismatch hs .string value

theorem keeps_toNumber (hs : heap.Sound policy roots frames) (value : Value) :
    Keeps policy roots frames (toNumber roots value) heap fun _ _ => True := by
  refine .get ?_
  split
  · exact .pure hs trivial
  · exact .pure hs trivial
  · exact keeps_mismatch hs .number value

theorem keeps_widen (hs : heap.Sound policy roots frames) (value : Value) :
    Keeps policy roots frames (widen roots value) heap fun _ _ => True := by
  unfold widen
  split
  · exact .pure hs trivial
  · exact keeps_toFloat hs value

theorem accepts_ofInt? {n : Int} {value : Value} (h : Value.ofInt? n = some value) :
    heap.Accepts policy frames value := by
  obtain ⟨fixnum, -, rfl⟩ := Option.map_eq_some_iff.1 h
  exact accepts_fixnum fixnum

theorem keeps_fixnumResult (hs : heap.Sound policy roots frames) (op : ArithmeticOp) (a b : Int) :
    Keeps policy roots frames (fixnumResult op a b) heap fun value heap' => heap'.Accepts policy frames value := by
  unfold fixnumResult
  split
  · exact .pure hs (accepts_ofInt? ‹_›)
  · exact .throw hs

theorem keeps_checkDivisor (hs : heap.Sound policy roots frames) (op : ArithmeticOp)
    (args : List Value) :
    Keeps policy roots frames (checkDivisor op args) heap fun _ _ => True := by
  unfold checkDivisor
  split
  · refine (keeps_firstArg hs args).bind fun value heap' h _ => ?_
    split
    · exact .throw h.sound
    · exact .pure h.sound trivial
  · exact .pure hs trivial

theorem accepts_boolean (hs : heap.Sound policy roots frames) (b : Bool) :
    heap.Accepts policy frames (roots.boolean b) := by
  unfold Roots.boolean
  split
  · exact hs.anchor_accepts (by simp [Roots.ids])
  · exact hs.anchor_accepts (by simp [Roots.ids])

/-- The values of a reply may be stored. -/
abbrev Safe (policy : Policy) (frames : List Frame) (reply : Reply) (heap : Heap) : Prop :=
  ∀ value ∈ reply.values, heap.Accepts policy frames value

theorem keeps_answer (hs : heap.Sound policy roots frames) {value : Value}
    (h : heap.Accepts policy frames value) :
    Keeps policy roots frames (return .answer value) heap (Safe policy frames) :=
  .pure hs (by simpa [Safe, Reply.values] using h)

theorem keeps_answerOf (x : HeapM Value)
    (h : Keeps policy roots frames x heap fun value heap' => heap'.Accepts policy frames value) :
    Keeps policy roots frames (do return .answer (← x)) heap (Safe policy frames) :=
  h.bind fun _ _ h ha => keeps_answer h.sound ha

theorem keeps_run (hs : heap.Sound policy roots frames) (native : Native) (receiver : Value)
    {args : List Value} (hargs : ∀ value ∈ args, heap.Accepts policy frames value) :
    Keeps policy roots frames (native.run roots receiver args) heap (Safe policy frames) := by
  have harg {heap' : Heap} (h : Follows policy roots heap frames heap' frames) {value : Value} (hv : value ∈ args) :=
    h.accepts value (hargs value hv)
  cases native with
  | fixnumArithmetic op =>
    refine (keeps_checkDivisor hs op args).bind
      fun _ _ h _ => (keeps_toFixnum h.sound receiver).bind fun a _ h _ =>
      (keeps_firstArg h.sound args).bind fun value _ h _ => (keeps_toNumber h.sound value).bind fun number _ h _ => ?_
    cases number with
    | fixnum b => exact keeps_answerOf _ (keeps_fixnumResult h.sound op a b)
    | float b => exact keeps_answerOf _ (keeps_newFloat h.sound _)
  | fixnumComparison relation =>
    refine (keeps_toFixnum hs receiver).bind fun a _ h _ => (keeps_firstArg h.sound args).bind
      fun value _ h _ =>
      (keeps_toNumber h.sound value).bind fun number _ h _ => ?_
    cases number with
    | fixnum b => exact keeps_answer h.sound (accepts_boolean h.sound _)
    | float b => exact keeps_answer h.sound (accepts_boolean h.sound _)
  | floatArithmetic op =>
    exact (keeps_toFloat hs receiver).bind fun a _ h _ => (keeps_firstArg h.sound args).bind
      fun value _ h _ =>
      (keeps_widen h.sound value).bind fun b _ h _ => keeps_answerOf _ (keeps_newFloat h.sound _)
  | floatComparison relation =>
    exact (keeps_toFloat hs receiver).bind fun a _ h _ => (keeps_firstArg h.sound args).bind
      fun value _ h _ =>
      (keeps_widen h.sound value).bind fun b _ h _ => keeps_answer h.sound (accepts_boolean h.sound _)
  | concatenate =>
    exact (keeps_toText hs receiver).bind fun a _ h _ => (keeps_firstArg h.sound args).bind
      fun value _ h _ =>
      (keeps_toText h.sound value).bind fun b _ h _ => keeps_answerOf _ (keeps_newString h.sound _)
  | sameText =>
    exact (keeps_toText hs receiver).bind fun a _ h _ => (keeps_firstArg h.sound args).bind
      fun value _ h _ =>
      .get (keeps_answer h.sound (accepts_boolean h.sound _))
  | textSize =>
    refine (keeps_toText hs receiver).bind fun s _ h _ => ?_
    split
    · exact keeps_answer h.sound (accepts_ofInt? ‹_›)
    · exact .throw h.sound
  | printString => exact .get (keeps_answerOf _ (keeps_newString hs _))
  | identical =>
    exact (keeps_firstArg hs args).bind fun value _ h _ => keeps_answer h.sound
      (accepts_boolean h.sound _)
  | halt =>
    exact (keeps_firstArg hs args).bind fun value _ h hv => .pure h.sound
      (by simpa [Safe, Reply.values] using harg h hv)
  | raise =>
    exact (keeps_firstArg hs args).bind fun value _ h hv => .pure h.sound
      (by simpa [Safe, Reply.values] using harg h hv)
  | setHandler =>
    refine (keeps_firstArg hs args).bind fun value _ h hv => .get ?_
    split
    · exact .pure h.sound (by simpa [Safe, Reply.values] using harg h hv)
    · exact keeps_mismatch h.sound .block value
  | restore =>
    simp only [run]
    split
    · exact .pure hs (by simpa [Safe, Reply.values] using hargs)
    · exact .throw hs

end Native

end ProtoVm
