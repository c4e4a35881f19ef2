import ProtoVm.Value

/-!
# Values as machine words

The low bit of a word is the tag. A clear tag marks an integer, in two's complement in the 63 bits
above it; a set tag marks a reference, with the cell index in the next 32 bits and the generation in
the 31 bits above those.
-/

namespace ProtoVm

def Fixnum.word (n : Fixnum) : UInt64 := .ofNat (2 * (n.val % 0x8000000000000000).toNat)

def ObjectId.word (id : ObjectId) : UInt64 := .ofNat (2 * (0x100000000 * id.generation + id.index) + 1)

/-- The integer that the low 63 bits of `n` stand for in two's complement. -/
def Fixnum.ofBits (n : Nat) : Fixnum :=
  ⟨Int.bmod n 0x8000000000000000, by
    have hl := @Int.le_bmod n 0x8000000000000000 (by decide)
    have hr := @Int.bmod_lt n 0x8000000000000000 (by decide)
    simp only [minFixnum, maxFixnum]
    omega⟩

namespace Value

def word : Value → UInt64
  | .fixnum n => n.word
  | .ref id => id.word

def ofWord (w : UInt64) : Value :=
  if w.toNat % 2 = 0 then .fixnum (.ofBits (w.toNat / 2))
  else .ref ⟨w.toNat / 2 % 0x100000000, w.toNat / 2 / 0x100000000⟩

end Value

end ProtoVm
