import Mathlib.Data.List.AList
import ProtoVm.Code

/-!
# Drafts

A draft is a unit that is being written, together with an index of the texts in its pool. An edit that fails keeps
what it did up to that point.
-/

namespace ProtoVm

/-- An integer that is pushed has to fit in a value; any other literal fits. -/
def Literal.checkRange : Literal → Except Fault Unit
  | .int n => if (Fixnum.ofInt? n).isSome then .ok () else .error (.integerOverflow n)
  | _ => .ok ()

structure Draft where
  code : Code := {}
  /-- The texts in the pool, with their positions. -/
  texts : AList (fun _ : String => UInt8) := ∅

abbrev Drafting := EStateM Fault Draft

namespace Draft

/-- The position of a text that is in the index. -/
def indexOf? (draft : Draft) : Literal → Option UInt8
  | .text s => draft.texts.lookup s
  | _ => none

/-- The position of the next entry, if one operand byte can name it. -/
def nextIndex : Drafting UInt8 := do
  let count := (← get).code.literals.length
  if count < Code.poolLimit then return count.toUInt8 else throw .poolOverflow

/-- Enters a text in the index. -/
def enter (l : Literal) (index : UInt8) (draft : Draft) : Draft :=
  match l with
  | .text s => { draft with texts := draft.texts.insert s index }
  | _ => draft

def append (l : Literal) (draft : Draft) : Draft :=
  { draft with code := { draft.code with literals := draft.code.literals ++ [l] } }

/-- The index of `l` in the pool. A text that is in the index is not added again. -/
def add (l : Literal) : Drafting UInt8 := do
  match (← get).indexOf? l with
  | some index => return index
  | none =>
    let index ← nextIndex
    modify (enter l index)
    modify (append l)
    return index

def emit (i : Instruction) : Drafting Unit :=
  modify fun draft => { draft with code := draft.code.emit i }

def push (l : Literal) : Drafting Unit := do
  liftExcept l.checkRange
  let index ← add l
  emit (.pushLiteral l.kind index)

/-- What can be done to a draft. -/
inductive Edit
  | emit (i : Instruction)
  | add (l : Literal)
  | push (l : Literal)

def Edit.run : Edit → Drafting Unit
  | .emit i => Draft.emit i
  | .add l => discard (Draft.add l)
  | .push l => Draft.push l

/-- The draft after an edit, whether it succeeds or fails. -/
def after (draft : Draft) (edit : Edit) : Draft :=
  match edit.run draft with
  | .ok _ next | .error _ next => next

def afterAll (draft : Draft) (edits : List Edit) : Draft := edits.foldl after draft

end Draft

end ProtoVm
