import ProtoVm.Proofs.FixnumArithmetic
import ProtoVm.Value.Tagged

/-!
# Words and values

Each word stands for one value that fits in a word, and each value that fits has one word. The shifts that pack and read
words agree with the arithmetic by which words are defined, up to the limits of the three fields.
-/

namespace ProtoVm

/-! ## Fields of a word -/

namespace UInt64

theorem and_one_eq_zero_iff {w : UInt64} : w &&& 1 = 0 ↔ w.toNat % 2 = 0 := by
  rw [← UInt64.toNat_inj, UInt64.toNat_and, show (1 : UInt64).toNat = 1 from rfl, Nat.and_one_is_mod]
  rfl

theorem toNat_shiftRight_one (w : UInt64) : (w >>> 1).toNat = w.toNat / 2 := by
  rw [UInt64.toNat_shiftRight, show (1 : UInt64).toNat % 64 = 1 from rfl, Nat.shiftRight_eq_div_pow, Nat.pow_one]

/-- Nothing is shifted out, and the fields do not overlap. -/
theorem toNat_shiftLeft_or {a b k : UInt64} (hk : k.toNat < 64) (hb : b.toNat < 2 ^ k.toNat)
    (ha : a.toNat * 2 ^ k.toNat < 2 ^ 64) : (a <<< k ||| b).toNat = 2 ^ k.toNat * a.toNat + b.toNat := by
  rw [UInt64.toNat_or, UInt64.toNat_shiftLeft, Nat.mod_eq_of_lt hk, Nat.shiftLeft_eq, Nat.mod_eq_of_lt ha,
    Nat.mul_comm, Nat.two_pow_add_eq_or_of_lt hb]

end UInt64

/-! ## Integers -/

namespace Fixnum

theorem tagged_signed (a : Fixnum) : tagged a.signed = a.word := word_eq_shift a

/-- The integers within the limits are the ones that are held in values. -/
theorem exists_signed {n : Int64} (h : minFixnum ≤ n.toInt ∧ n.toInt ≤ maxFixnum) : ∃ a : Fixnum, a.signed = n :=
  ⟨⟨n.toInt, h⟩, Int64.toInt_inj.1 (toInt_signed _)⟩

theorem word_ofBits {n : Nat} (h : n < 2 ^ 63) : (ofBits n).word.toNat = 2 * n := by
  rw [toNat_word, val_ofBits, show (2 : ℤ) ^ 63 = ((0x8000000000000000 : ℕ) : ℤ) by norm_num, Int.bmod_emod]
  omega

end Fixnum

/-! ## Ids -/

namespace ObjectId

variable {id : ObjectId}

theorem Fits.index_lt (h : id.Fits) : id.index < 2 ^ 32 := h.1

theorem Fits.generation_lt (h : id.Fits) : id.generation < 2 ^ 31 := Nat.lt_succ_of_le h.2

theorem toNat_word (h : id.Fits) : id.word.toNat = 2 * (2 ^ 32 * id.generation + id.index) + 1 := by
  have hindex := h.index_lt
  have hgeneration := h.generation_lt
  have hlt : 2 * (2 ^ 32 * id.generation + id.index) + 1 < 2 ^ 64 := by omega
  exact UInt64.toNat_ofNat_of_lt' hlt

theorem tagged_eq_word (h : id.Fits) : id.tagged = id.word := by
  have hindex_lt := h.index_lt
  have hgeneration_lt := h.generation_lt
  have hindex : (UInt64.ofNat id.index).toNat = id.index :=
    UInt64.toNat_ofNat_of_lt' (Nat.lt_trans hindex_lt (by decide))
  have hgeneration : (UInt64.ofNat id.generation).toNat = id.generation :=
    UInt64.toNat_ofNat_of_lt' (Nat.lt_trans hgeneration_lt (by decide))
  have hfields : (UInt64.ofNat id.generation <<< 32 ||| UInt64.ofNat id.index).toNat =
      2 ^ 32 * id.generation + id.index := by
    rw [UInt64.toNat_shiftLeft_or (by decide)] <;> simp only [hindex, hgeneration, UInt64.reduceToNat] <;> omega
  apply UInt64.toNat_inj.1
  rw [toNat_word h, tagged, UInt64.toNat_shiftLeft_or (by decide) (by decide), hfields]
  · rfl
  · simp only [hfields, UInt64.reduceToNat]
    omega

end ObjectId

/-! ## Values -/

namespace Value

theorem ofWord_of_even {w : UInt64} (h : w.toNat % 2 = 0) : ofWord w = .fixnum (.ofBits (w.toNat / 2)) := if_pos h

theorem ofWord_of_odd {w : UInt64} (h : w.toNat % 2 ≠ 0) :
    ofWord w = .ref ⟨w.toNat / 2 % 2 ^ 32, w.toNat / 2 / 2 ^ 32⟩ := if_neg h

theorem fits_ofWord (w : UInt64) : (ofWord w).Fits := by
  by_cases h : w.toNat % 2 = 0
  · rw [ofWord_of_even h]
    trivial
  · have hlt := w.toNat_lt
    rw [ofWord_of_odd h]
    constructor
    · exact Nat.mod_lt _ (by decide)
    · show w.toNat / 2 / 2 ^ 32 ≤ 0x7fffffff
      omega

/-- Every word is the word of the value it stands for. -/
theorem word_ofWord (w : UInt64) : (ofWord w).word = w := by
  have hfits := fits_ofWord w
  apply UInt64.toNat_inj.1
  by_cases h : w.toNat % 2 = 0
  · have hlt := w.toNat_lt
    rw [ofWord_of_even h]
    show (Fixnum.ofBits (w.toNat / 2)).word.toNat = w.toNat
    rw [Fixnum.word_ofBits (by omega)]
    omega
  · rw [ofWord_of_odd h] at hfits ⊢
    show (ObjectId.word _).toNat = w.toNat
    rw [ObjectId.toNat_word hfits]
    show 2 * (2 ^ 32 * (w.toNat / 2 / 2 ^ 32) + w.toNat / 2 % 2 ^ 32) + 1 = w.toNat
    omega

theorem word_of_ofWord {w : UInt64} {v : Value} (h : ofWord w = v) : v.word = w := h ▸ word_ofWord w

/-- A value that fits is read back from its word. -/
theorem ofWord_word {v : Value} (h : v.Fits) : ofWord v.word = v := by
  cases v with
  | fixnum a => exact a.ofWord_word
  | ref id =>
    have hid : id.Fits := h
    have hword := ObjectId.toNat_word hid
    have hindex := hid.index_lt
    show ofWord id.word = _
    rw [ofWord_of_odd (by omega), hword]
    congr 2 <;> omega

/-- The values that fit are as many as the words. -/
def equivWord : { v : Value // v.Fits } ≃ UInt64 where
  toFun v := v.val.word
  invFun w := ⟨ofWord w, fits_ofWord w⟩
  left_inv v := Subtype.ext (ofWord_word v.property)
  right_inv := word_ofWord

end Value

/-! ## Reading by shifts -/

theorem Fixnum.untagged?_eq_some_iff {w : UInt64} {n : Int64} :
    untagged? w = some n ↔ ∃ a : Fixnum, Value.ofWord w = .fixnum a ∧ a.signed = n := by
  have hread {a : Fixnum} (hvalue : Value.ofWord w = .fixnum a) : untagged? w = some a.signed := by
    have hword : (Value.fixnum a).word = w := Value.word_of_ofWord hvalue
    exact hword ▸ untagged?_word a
  constructor
  · intro h
    have heven : w.toNat % 2 = 0 := by
      by_contra hodd
      rw [untagged?, if_neg (mt UInt64.and_one_eq_zero_iff.1 hodd)] at h
      cases h
    have hvalue := Value.ofWord_of_even heven
    exact ⟨_, hvalue, Option.some_inj.1 ((hread hvalue).symm.trans h)⟩
  · rintro ⟨a, hvalue, rfl⟩
    exact hread hvalue

theorem ObjectId.untagged?_eq (w : UInt64) : untagged? w = (Value.ofWord w).toId? := by
  by_cases h : w.toNat % 2 = 0
  · rw [Value.ofWord_of_even h, untagged?, if_pos (UInt64.and_one_eq_zero_iff.2 h)]
    rfl
  · have hlt := w.toNat_lt
    have hupper : (w >>> 1 >>> 32).toNat = w.toNat / 2 / 2 ^ 32 := by
      rw [UInt64.toNat_shiftRight, UInt64.toNat_shiftRight_one, show (32 : UInt64).toNat % 64 = 32 from rfl,
        Nat.shiftRight_eq_div_pow]
    rw [Value.ofWord_of_odd h, untagged?, if_neg (mt UInt64.and_one_eq_zero_iff.1 h), UInt64.toNat_toUInt32,
      UInt64.toNat_toUInt32, hupper, UInt64.toNat_shiftRight_one,
      Nat.mod_eq_of_lt (a := w.toNat / 2 / 2 ^ 32) (by omega)]
    rfl

theorem ObjectId.untagged?_eq_some_iff {w : UInt64} {id : ObjectId} :
    untagged? w = some id ↔ Value.ofWord w = .ref id := by
  rw [untagged?_eq]
  cases Value.ofWord w <;> simp [Value.toId?]

namespace Fixnum

theorem tagged?_of_fits {n : Int64} (h : minFixnum ≤ n.toInt ∧ n.toInt ≤ maxFixnum) :
    tagged? n = some (tagged n) := if_pos h

theorem untagged?_tagged {n : Int64} (h : minFixnum ≤ n.toInt ∧ n.toInt ≤ maxFixnum) :
    untagged? (tagged n) = some n := by
  obtain ⟨a, rfl⟩ := exists_signed h
  rw [tagged_signed]
  exact untagged?_word a

/-- An integer that is read from a word is within the limits. -/
theorem of_untagged? {w : UInt64} {n : Int64} (h : untagged? w = some n) :
    tagged n = w ∧ tagged? n = some w ∧ (Value.ofWord w).toInt? = some n.toInt := by
  obtain ⟨a, hvalue, rfl⟩ := untagged?_eq_some_iff.1 h
  have hword : a.word = w := Value.word_of_ofWord hvalue
  have hfits : minFixnum ≤ a.signed.toInt ∧ a.signed.toInt ≤ maxFixnum := by
    rw [toInt_signed]
    exact a.property
  refine ⟨(tagged_signed a).trans hword, ?_, ?_⟩
  · rw [tagged?_of_fits hfits, tagged_signed, hword]
  · rw [hvalue, toInt_signed]
    rfl

/-- The tag is the lowest bit, also where other bits are lost. -/
theorem tagged_ne_tagged (n : Int64) (id : ObjectId) : tagged n ≠ id.tagged := fun h => by
  have heven : (tagged n).toNat % 2 = 0 := by
    rw [tagged, UInt64.toNat_shiftLeft, show (1 : UInt64).toNat % 64 = 1 from rfl, Nat.shiftLeft_eq]
    omega
  have hodd : id.tagged.toNat % 2 = 1 := by
    rw [ObjectId.tagged, UInt64.toNat_or]
    exact Nat.or_mod_two_eq_one.2 (.inr rfl)
  rw [h] at heven
  omega

end Fixnum

namespace ObjectId

theorem untagged?_tagged {id : ObjectId} (h : id.Fits) : untagged? id.tagged = some id := by
  rw [tagged_eq_word h, untagged?_eq_some_iff]
  exact Value.ofWord_word (v := .ref id) h

theorem of_untagged? {w : UInt64} {id : ObjectId} (h : untagged? w = some id) :
    id.Fits ∧ id.tagged = w ∧ (Value.ofWord w).toId? = some id := by
  have hvalue := untagged?_eq_some_iff.1 h
  have hfits : id.Fits := by
    have h := Value.fits_ofWord w
    rwa [hvalue] at h
  exact ⟨hfits, (tagged_eq_word hfits).trans (Value.word_of_ofWord hvalue), hvalue ▸ rfl⟩

theorem tagged_inj {a b : ObjectId} (ha : a.Fits) (hb : b.Fits) : a.tagged = b.tagged ↔ a = b := by
  refine ⟨fun h => ?_, fun h => h ▸ rfl⟩
  rw [← Option.some_inj, ← untagged?_tagged ha, ← untagged?_tagged hb, h]

end ObjectId

/-- A word is read either as an integer or as an id. -/
theorem Value.untagged_xor (w : UInt64) :
    Xor (∃ n, Fixnum.untagged? w = some n) (∃ id, ObjectId.untagged? w = some id) := by
  simp only [Fixnum.untagged?_eq_some_iff, ObjectId.untagged?_eq_some_iff]
  cases ofWord w <;> simp [Xor]

namespace Value

/-- Values and words correspond. Every word is read in exactly one of the two ways, and what is read is within its
limits and has this word. Every integer and every id within the limits is read back from its word, an integer outside
them is refused, and no two of them share a word. -/
theorem tagging_bijective :
    (∀ w : UInt64,
      Xor (∃ n, Fixnum.untagged? w = some n) (∃ id, ObjectId.untagged? w = some id) ∧
      (∀ n, Fixnum.untagged? w = some n →
        Fixnum.tagged n = w ∧ Fixnum.tagged? n = some w ∧ (ofWord w).toInt? = some n.toInt) ∧
      ∀ id, ObjectId.untagged? w = some id → id.Fits ∧ id.tagged = w ∧ (ofWord w).toId? = some id) ∧
    (∀ n : Int64,
      if -2 ^ 62 ≤ n.toInt ∧ n.toInt ≤ 2 ^ 62 - 1 then
        Fixnum.tagged? n = some (Fixnum.tagged n) ∧ Fixnum.untagged? (Fixnum.tagged n) = some n
      else Fixnum.tagged? n = none) ∧
    (∀ id : ObjectId, id.index < 2 ^ 32 → id.generation ≤ 2 ^ 31 - 1 → ObjectId.untagged? id.tagged = some id) ∧
    (∀ (n : Int64) (id : ObjectId), Fixnum.tagged n ≠ id.tagged) ∧
    (∀ a b : ObjectId, a.Fits → b.Fits → (a.tagged = b.tagged ↔ a = b)) ∧
    (∀ a : Fixnum, Fixnum.tagged a.signed = (fixnum a).word) ∧
    (∀ id : ObjectId, id.Fits → id.tagged = (ref id).word) ∧
    Function.Bijective fun v : { v : Value // v.Fits } => v.val.word := by
  refine ⟨fun w => ⟨untagged_xor w, fun _ => Fixnum.of_untagged?, fun _ => ObjectId.of_untagged?⟩, fun n => ?_,
    fun id hindex hgeneration => ObjectId.untagged?_tagged ⟨hindex, hgeneration⟩, Fixnum.tagged_ne_tagged,
    fun a b => ObjectId.tagged_inj, Fixnum.tagged_signed, fun id => ObjectId.tagged_eq_word, equivWord.bijective⟩
  split
  · rename_i h
    exact ⟨Fixnum.tagged?_of_fits h, Fixnum.untagged?_tagged h⟩
  · rename_i h
    exact if_neg h

end Value

end ProtoVm
