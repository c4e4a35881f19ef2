/-!
# Values

A value is a small integer held directly, or the identity of an object in the heap.
-/

namespace ProtoVm

/-- The least integer that fits in 63 bits. -/
def minFixnum : Int := -0x4000000000000000

/-- The greatest integer that fits in 63 bits. -/
def maxFixnum : Int := 0x3fffffffffffffff

/-- The integers that fit in a 64-bit word beside one tag bit. -/
abbrev Fixnum := { n : Int // minFixnum ≤ n ∧ n ≤ maxFixnum }

def Fixnum.ofInt? (n : Int) : Option Fixnum :=
  if h : minFixnum ≤ n ∧ n ≤ maxFixnum then some ⟨n, h⟩ else none

/-- A cell of the heap together with the number of times the cell had been given back when the
object moved in. -/
structure ObjectId where
  index : Nat
  generation : Nat
deriving DecidableEq, Repr

/-- The last generation a word has room for. -/
def ObjectId.maxGeneration : Nat := 0x7fffffff

/-- Written `#index`, followed by `.generation` for a cell used before. -/
def ObjectId.text (id : ObjectId) : String :=
  if id.generation = 0 then s!"#{id.index}" else s!"#{id.index}.{id.generation}"

inductive Value
  | fixnum (n : Fixnum)
  | ref (id : ObjectId)
deriving DecidableEq, Repr

namespace Value

def ofInt? (n : Int) : Option Value := (Fixnum.ofInt? n).map .fixnum

def toInt? : Value → Option Int
  | .fixnum n => some n.val
  | .ref _ => none

def toId? : Value → Option ObjectId
  | .fixnum _ => none
  | .ref id => some id

def isFixnum : Value → Bool
  | .fixnum _ => true
  | .ref _ => false

/-- Written `Fixnum(n)` or `Ref(#index)`. -/
def text : Value → String
  | .fixnum n => s!"Fixnum({n.val})"
  | .ref id => s!"Ref({id.text})"

end Value

theorem Fixnum.ofInt?_eq_some_iff {n : Int} {f : Fixnum} : Fixnum.ofInt? n = some f ↔ f.val = n := by
  unfold Fixnum.ofInt?
  split
  · simp [Subtype.ext_iff, eq_comm]
  · rename_i h
    simp only [reduceCtorEq, false_iff]
    exact fun e => h (e ▸ f.property)

theorem Fixnum.ofInt?_eq_none_iff {n : Int} :
    Fixnum.ofInt? n = none ↔ n < minFixnum ∨ maxFixnum < n := by
  unfold Fixnum.ofInt?
  split
  · simp_all
  · simp only [true_iff]
    omega

end ProtoVm
