import Mathlib.Algebra.GroupWithZero.Nat
import ProtoVm.Proofs.Moves

/-!
# A rank that every instruction lowers

Code has no jumps, so a frame has only so many instructions left. A call costs less than the instruction
that makes it when frames weigh less the deeper they are, and parking a stack uses up one of the tokens
for which the heap has room.
-/

namespace ProtoVm

/-- What the frames of a stack may still do, if no code is longer than `size` and no stack is deeper than
`depth`. -/
def stackWeight (size depth : Nat) : List Frame → Nat
  | [] => 0
  | frame :: callers =>
    (size - frame.ip + 1) * (size + 2) ^ (depth - (callers.length + 1)) + stackWeight size depth callers

/-- The weight of a stack with one new frame. -/
def newWeight (size depth : Nat) : Nat := (size + 1) * (size + 2) ^ (depth - 1)

/-- What a process may still do, if it can park at most `tokens` stacks. -/
def Process.rank (size depth tokens : Nat) (process : Process) : Nat :=
  if process.isFinished then 0
  else (tokens - process.parked.length) * (newWeight size depth + 1) + stackWeight size depth process.frames +
    (process.parked.map fun stack => stackWeight size depth (stack.getD [])).sum + 1

variable {size depth tokens : Nat}

theorem stackWeight_of_place {frame frame' : Frame} (callers : List Frame)
    (h : frame'.place = frame.place) :
    stackWeight size depth (frame' :: callers) = stackWeight size depth (frame :: callers) := by
  have hip : frame'.ip = frame.ip := (Prod.mk.inj h).2
  simp only [stackWeight, hip]

/-- Going past an instruction makes a stack lighter by all that a call could add. -/
theorem stackWeight_fetch {frame : Frame} {callers : List Frame} {ip : Nat} (hlt : frame.ip < ip)
    (hle : ip ≤ size) :
    stackWeight size depth ({ frame with ip } :: callers) + (size + 2) ^ (depth - (callers.length + 1)) ≤
      stackWeight size depth (frame :: callers) := by
  have hsteps : size - ip + 1 + 1 ≤ size - frame.ip + 1 := by omega
  have hmul := Nat.mul_le_mul_right ((size + 2) ^ (depth - (callers.length + 1))) hsteps
  rw [Nat.add_mul _ 1, Nat.one_mul] at hmul
  simp only [stackWeight]
  omega

theorem stackWeight_call {frame : Frame} {callers : List Frame} (hip : frame.ip = 0)
    (hdepth : callers.length < depth) :
    stackWeight size depth (frame :: callers) + 1 ≤
      stackWeight size depth callers + (size + 2) ^ (depth - callers.length) := by
  obtain ⟨rest, hrest⟩ : ∃ rest, depth - callers.length = rest + 1 := ⟨depth - callers.length - 1, by omega⟩
  have hrest' : depth - (callers.length + 1) = rest := by omega
  have hpos : 0 < (size + 2) ^ rest := Nat.pow_pos (by omega)
  simp only [stackWeight, hip, hrest, hrest', Nat.sub_zero, Nat.pow_succ']
  have hsplit : (size + 2) * (size + 2) ^ rest = (size + 1) * (size + 2) ^ rest + (size + 2) ^ rest := by
    rw [← Nat.succ_mul]
  omega

theorem stackWeight_new {frame : Frame} (hip : frame.ip = 0) :
    stackWeight size depth [frame] = newWeight size depth := by
  simp [stackWeight, newWeight, hip]

theorem sum_set_none {parked : List (Option (List Frame))} {index : Nat} {frames : List Frame}
    (h : parked[index]? = some (some frames)) :
    (parked.map fun stack => stackWeight size depth (stack.getD [])).sum =
      stackWeight size depth frames +
        ((parked.set index none).map fun stack => stackWeight size depth (stack.getD [])).sum := by
  induction parked generalizing index with
  | nil => cases h
  | cons stack parked ih =>
    cases index with
    | zero =>
      rw [List.getElem?_cons_zero] at h
      cases h
      simp [stackWeight]
    | succ index =>
      rw [List.getElem?_cons_succ] at h
      simp only [List.set_cons_succ, List.map_cons, List.sum_cons, ih h]
      omega

namespace Process

variable {restores : Nat → Prop} {process process' : Process}

theorem rank_of_isFinished (h : process.isFinished = true) :
    process.rank size depth tokens = 0 := by
  simp [rank, h]

theorem rank_pos (h : process.isFinished = false) : 0 < process.rank size depth tokens := by
  simp [rank, h]

theorem rank_eq (h : process.isFinished = false) :
    process.rank size depth tokens =
      (tokens - process.parked.length) * (newWeight size depth + 1) + stackWeight size depth process.frames +
      (process.parked.map fun stack => stackWeight size depth (stack.getD [])).sum + 1 := by
  simp [rank, h]

/-- The way a process goes on adds less to its rank than one instruction took from it. -/
theorem Turns.rank_lt (h : process.Turns depth restores process')
    (hgoing : process.isFinished = false) (htokens : process'.parked.length ≤ tokens) :
    process'.rank size depth tokens <
      process.rank size depth tokens + (size + 2) ^ (depth - process.frames.length) := by
  have hpos : 0 < (size + 2) ^ (depth - process.frames.length) := Nat.pow_pos (by omega)
  cases h with
  | stop h =>
    rw [rank_of_isFinished h]
    omega
  | stay => omega
  | @call frame hip hdepth =>
    have hcall : stackWeight size depth (frame :: process.frames) + 1 ≤
        stackWeight size depth process.frames + (size + 2) ^ (depth - process.frames.length) :=
      stackWeight_call hip hdepth
    rw [rank_eq hgoing,
      rank_eq (show isFinished { process with frames := frame :: process.frames } = false from hgoing)]
    simp only
    omega
  | @back frame caller caller' callers hstack hplace =>
    have hback : stackWeight size depth (caller' :: callers) ≤ stackWeight size depth process.frames := by
      rw [hstack, stackWeight_of_place callers hplace]
      exact Nat.le_add_left _ _
    rw [rank_eq hgoing,
      rank_eq (show isFinished { process with frames := caller' :: callers } = false from hgoing)]
    simp only
    omega
  | @park frame hip =>
    simp only [List.length_append, List.length_singleton] at htokens
    have hroom : tokens - process.parked.length = tokens - (process.parked.length + 1) + 1 := by
      omega
    have hnew : stackWeight size depth [frame] = newWeight size depth := stackWeight_new hip
    rw [rank_eq hgoing, rank_eq (show isFinished
      { process with frames := [frame], parked := process.parked ++ [some process.frames] } = false from hgoing)]
    simp only [List.length_append, List.length_singleton, List.map_append, List.map_singleton, List.sum_append,
      List.sum_singleton, Option.getD_some, hnew, hroom, Nat.add_mul, Nat.one_mul]
    omega
  | @resume index frame frame' callers hparked hplace hrestores =>
    have hsum : (process.parked.map fun stack => stackWeight size depth (stack.getD [])).sum =
        stackWeight size depth (frame :: callers) +
          ((process.parked.set index none).map fun stack => stackWeight size depth (stack.getD [])).sum :=
      sum_set_none hparked
    have hsame : stackWeight size depth (frame' :: callers) = stackWeight size depth (frame :: callers) :=
      stackWeight_of_place callers hplace
    rw [rank_eq hgoing, rank_eq (show isFinished
      { process with frames := frame' :: callers, parked := process.parked.set index none } = false from hgoing)]
    simp only [List.length_set]
    omega

/-- Every instruction of a process lowers its rank. -/
theorem Moves.rank_lt (h : process.Moves depth restores process')
    (hgoing : process.isFinished = false)
    (hsize : ∀ frame callers, process.frames = frame :: callers →
      frame.body.code.bytes.size ≤ size) (htokens : process'.parked.length ≤ tokens) :
    process'.rank size depth tokens < process.rank size depth tokens := by
  cases h with
  | stop h =>
    rw [rank_of_isFinished h]
    exact rank_pos hgoing
  | @go fetched settled _ hfetch hstay hturn =>
    obtain ⟨frame, callers, ip, hframes, hfetched, hlt, hle⟩ := hfetch.frames
    obtain ⟨top, hsettled, hplace⟩ := hstay.frames hfetched
    have hparked : settled.parked = process.parked := hstay.parked_eq.trans hfetch.parked_eq
    have hgoing' : settled.isFinished = false := by
      rw [isFinished, hstay.outcome_eq, hfetch.outcome_eq]
      exact hgoing
    have hlighter : stackWeight size depth settled.frames + (size + 2) ^ (depth - settled.frames.length) ≤
        stackWeight size depth process.frames := by
      rw [hsettled, hframes, stackWeight_of_place callers hplace, List.length_cons]
      exact stackWeight_fetch hlt (Nat.le_trans hle (hsize frame callers hframes))
    have hnext : process'.rank size depth tokens <
        settled.rank size depth tokens + (size + 2) ^ (depth - settled.frames.length) :=
      hturn.rank_lt hgoing' htokens
    rw [rank_eq hgoing', hparked] at hnext
    rw [rank_eq hgoing]
    omega

end Process

end ProtoVm
