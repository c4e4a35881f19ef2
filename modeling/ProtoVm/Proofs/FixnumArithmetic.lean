import Mathlib.Data.Rat.Floor
import ProtoVm.Proofs.Effects
import ProtoVm.Value.Signed

/-!
# Arithmetic on integers

On two integers that fit in values, the arithmetic natives give the exact result if it fits as well, and fail if it does
not or if there is none. The comparisons decide the order. The words of the values lead to the same results: that an
operation stays within the words of the machine is never the narrower of the two limits.
-/

namespace ProtoVm

/-! ## Exact results -/

/-- The integer next to `x` on the side of zero. -/
def truncate (x : ℚ) : ℤ := if 0 ≤ x then ⌊x⌋ else ⌈x⌉

/-- The exact result of an operation, if it is defined. -/
def ArithmeticOp.Gives (a b r : ℤ) : ArithmeticOp → Prop
  | add => r = a + b
  | sub => r = a - b
  | mul => r = a * b
  | div => b ≠ 0 ∧ r = truncate ((a : ℚ) / b)
  | rem => b ≠ 0 ∧ b ∣ a - r ∧ |r| < |b| ∧ (r ≠ 0 → r.sign = a.sign)

/-- How an operation on two integers has to end. -/
def ArithmeticOp.Settles (op : ArithmeticOp) (a b : ℤ) : Except ArithmeticFailure Fixnum → Prop
  | .ok r => op.Gives a b r.val
  | .error .divisionByZero => op.divides = true ∧ b = 0
  | .error .overflow => ∃ r, op.Gives a b r ∧ ¬(minFixnum ≤ r ∧ r ≤ maxFixnum)

def Comparison.Holds (a b : ℤ) : Comparison → Prop
  | lt => a < b
  | gt => a > b
  | le => a ≤ b
  | ge => a ≥ b
  | eq => a = b

theorem Comparison.exact_iff {a b : ℤ} (relation : Comparison) : relation.exact a b = true ↔ relation.Holds a b := by
  cases relation <;> simp [exact, Holds]

/-! ## Division -/

theorem floor_div_of_pos (a : ℤ) {b : ℤ} (hb : 0 < b) : ⌊(a : ℚ) / b⌋ = a / b := by
  obtain ⟨n, rfl⟩ := Int.eq_ofNat_of_zero_le hb.le
  exact_mod_cast Rat.floor_intCast_div_natCast a n

theorem truncate_div_of_pos (a : ℤ) {b : ℤ} (hb : 0 < b) : truncate ((a : ℚ) / b) = a.tdiv b := by
  have hcast : (0 : ℚ) < b := Int.cast_pos.2 hb
  unfold truncate
  rcases lt_or_ge a 0 with ha | ha
  · have hneg : (a : ℚ) / b < 0 := div_neg_of_neg_of_pos (Int.cast_lt_zero.2 ha) hcast
    rw [if_neg hneg.not_ge]
    calc ⌈(a : ℚ) / b⌉ = -⌊((-a : ℤ) : ℚ) / b⌋ := by rw [Int.cast_neg, neg_div, Int.floor_neg, neg_neg]
      _ = -((-a) / b) := by rw [floor_div_of_pos _ hb]
      _ = -((-a).tdiv b) := by rw [Int.tdiv_eq_ediv_of_nonneg (Int.neg_nonneg_of_nonpos ha.le)]
      _ = a.tdiv b := by rw [Int.neg_tdiv, neg_neg]
  · have hpos : (0 : ℚ) ≤ a / b := div_nonneg (Int.cast_nonneg ha) hcast.le
    rw [if_pos hpos, floor_div_of_pos a hb, Int.tdiv_eq_ediv_of_nonneg ha]

theorem truncate_div (a : ℤ) {b : ℤ} (hb : b ≠ 0) : truncate ((a : ℚ) / b) = a.tdiv b := by
  rcases Int.lt_or_gt_of_ne hb with hneg | hpos
  · have h := truncate_div_of_pos (-a) (Int.neg_pos_of_neg hneg)
    rwa [Int.cast_neg, Int.cast_neg, neg_div_neg_eq, Int.neg_tdiv, Int.tdiv_neg, neg_neg] at h
  · exact truncate_div_of_pos a hpos

theorem tmod_spec (a : ℤ) {b : ℤ} (hb : b ≠ 0) :
    b ∣ a - a.tmod b ∧ |a.tmod b| < |b| ∧ (a.tmod b ≠ 0 → (a.tmod b).sign = a.sign) := by
  refine ⟨⟨a.tdiv b, ?_⟩, ?_, fun hne => ?_⟩
  · have h := Int.mul_tdiv_add_tmod a b
    omega
  · rw [Int.abs_eq_natAbs, Int.abs_eq_natAbs, Int.natAbs_tmod]
    exact Int.ofNat_lt.2 (Nat.mod_lt _ (Int.natAbs_pos.2 hb))
  · rw [Int.sign_tmod, if_neg (mt Int.tmod_eq_zero_of_dvd hne)]

theorem nonneg_of_sign {a r : ℤ} (h : r ≠ 0 → r.sign = a.sign) (ha : 0 ≤ a) : 0 ≤ r := by
  by_contra hneg
  have hsign := h (by omega)
  rw [Int.sign_eq_neg_one_of_neg (by omega)] at hsign
  have := Int.sign_nonneg_iff.2 ha
  omega

/-- Two remainders lie on the same side of zero, so they are closer to each other than the divisor is large. -/
theorem eq_of_remainders {a b r r' : ℤ} (hr : b ∣ a - r ∧ |r| < |b| ∧ (r ≠ 0 → r.sign = a.sign))
    (hr' : b ∣ a - r' ∧ |r'| < |b| ∧ (r' ≠ 0 → r'.sign = a.sign)) : r = r' := by
  obtain ⟨hdvd, hlt, hsign⟩ := hr
  obtain ⟨hdvd', hlt', hsign'⟩ := hr'
  have hclose : |r' - r| < |b| := by
    rw [abs_lt] at hlt hlt' ⊢
    rcases le_total 0 a with ha | ha
    · have := nonneg_of_sign hsign ha
      have := nonneg_of_sign hsign' ha
      omega
    · have hflip {x : ℤ} (h : x ≠ 0 → x.sign = a.sign) : 0 ≤ -x :=
        nonneg_of_sign (a := -a) (fun hx => by rw [Int.sign_neg, Int.sign_neg, h (neg_ne_zero.1 hx)]) (by omega)
      have := hflip hsign
      have := hflip hsign'
      omega
  have hdvd : b ∣ r' - r := by
    have h := dvd_sub hdvd hdvd'
    rwa [sub_sub_sub_cancel_left] at h
  have hzero := Int.eq_zero_of_abs_lt_dvd ((abs_dvd b _).2 hdvd) hclose
  omega

/-! ## Outcomes -/

namespace ArithmeticOp

variable {op : ArithmeticOp} {a b r : ℤ}

theorem not_gives (hdivides : op.divides = true) : ¬op.Gives a 0 r := by
  cases op with
  | div | rem => exact fun h => h.1 rfl
  | _ => cases hdivides

theorem gives_iff (hdefined : op.divides = true → b ≠ 0) : op.Gives a b r ↔ r = op.exact a b := by
  cases op with
  | add | sub | mul => exact .rfl
  | div =>
    have hb := hdefined rfl
    show b ≠ 0 ∧ r = truncate _ ↔ r = a.tdiv b
    rw [truncate_div a hb, and_iff_right hb]
  | rem =>
    have hb := hdefined rfl
    constructor
    · exact fun h => eq_of_remainders h.2 (tmod_spec a hb)
    · rintro rfl
      exact ⟨hb, tmod_spec a hb⟩

/-- How an operation ends, computed. -/
def outcome (op : ArithmeticOp) (a b : ℤ) : Except ArithmeticFailure Fixnum :=
  if op.divides && b == 0 then .error .divisionByZero
  else match Fixnum.ofInt? (op.exact a b) with
    | some r => .ok r
    | none => .error .overflow

theorem outcome_of_divides (hdivides : op.divides = true) : op.outcome a 0 = .error .divisionByZero := by
  simp [outcome, hdivides]

theorem outcome_of_defined (hdefined : op.divides = true → b ≠ 0) :
    op.outcome a b =
      match Fixnum.ofInt? (op.exact a b) with
      | some r => .ok r
      | none => .error .overflow := by
  rw [outcome, if_neg]
  simpa using hdefined

theorem settles_iff_of_divides (hdivides : op.divides = true) {result : Except ArithmeticFailure Fixnum} :
    op.Settles a 0 result ↔ result = op.outcome a 0 := by
  rw [outcome_of_divides hdivides]
  match result with
  | .ok r => exact ⟨fun h => absurd h (not_gives hdivides), nofun⟩
  | .error .divisionByZero => exact ⟨fun _ => rfl, fun _ => ⟨hdivides, rfl⟩⟩
  | .error .overflow => exact ⟨fun ⟨_, h, _⟩ => absurd h (not_gives hdivides), nofun⟩

theorem settles_iff_of_defined (hdefined : op.divides = true → b ≠ 0) {result : Except ArithmeticFailure Fixnum} :
    op.Settles a b result ↔ result = op.outcome a b := by
  have hzero : ¬op.Settles a b (.error .divisionByZero) := fun h => hdefined h.1 h.2
  have hok (r : Fixnum) : op.Settles a b (.ok r) ↔ r.val = op.exact a b := gives_iff hdefined
  have hoverflow : op.Settles a b (.error .overflow) ↔ ¬(minFixnum ≤ op.exact a b ∧ op.exact a b ≤ maxFixnum) := by
    show (∃ r, op.Gives a b r ∧ _) ↔ _
    simp only [gives_iff hdefined, exists_eq_left]
  rw [outcome_of_defined hdefined]
  cases hfits : Fixnum.ofInt? (op.exact a b) with
  | some exact =>
    have hexact := Fixnum.ofInt?_eq_some_iff.1 hfits
    match result with
    | .ok r => simp [hok, ← hexact, Subtype.ext_iff]
    | .error .divisionByZero => exact ⟨fun h => absurd h hzero, nofun⟩
    | .error .overflow => exact ⟨fun h => absurd (hexact ▸ exact.property) (hoverflow.1 h), nofun⟩
  | none =>
    have hout := Fixnum.ofInt?_eq_none_iff.1 hfits
    match result with
    | .ok r =>
      refine ⟨fun h => ?_, nofun⟩
      have := (hok r).1 h ▸ r.property
      omega
    | .error .divisionByZero => exact ⟨fun h => absurd h hzero, nofun⟩
    | .error .overflow => exact ⟨fun _ => rfl, fun _ => hoverflow.2 (by omega)⟩

/-- An operation ends in exactly one way. -/
theorem settles_iff {result : Except ArithmeticFailure Fixnum} : op.Settles a b result ↔ result = op.outcome a b := by
  by_cases hzero : op.divides = true ∧ b = 0
  · obtain ⟨hdivides, rfl⟩ := hzero
    exact settles_iff_of_divides hdivides
  · exact settles_iff_of_defined fun hdivides hb => hzero ⟨hdivides, hb⟩

end ArithmeticOp

/-! ## Words -/

namespace Fixnum

theorem bounds (a : Fixnum) : -2 ^ 62 ≤ a.val ∧ a.val < 2 ^ 62 := by
  have h := a.property
  simp only [minFixnum, maxFixnum] at h
  omega

/-- The integer as the machine computes with it. -/
def signed (a : Fixnum) : Int64 := .ofInt a.val

theorem toInt_signed (a : Fixnum) : a.signed.toInt = a.val := by
  have := a.bounds
  exact Int64.toInt_ofInt_of_le (by omega) (by omega)

theorem toNat_word (a : Fixnum) : a.word.toNat = 2 * (a.val % 2 ^ 63).toNat := by
  have hlt : 2 * (a.val % 2 ^ 63).toNat < 2 ^ 64 := by omega
  exact UInt64.toNat_ofNat_of_lt' hlt

theorem toInt_word (a : Fixnum) : a.word.toInt64.toInt = 2 * a.val := by
  have := a.bounds
  rw [← Int64.toInt_toBitVec, UInt64.toBitVec_toInt64, BitVec.toInt_eq_toNat_bmod, UInt64.toNat_toBitVec, toNat_word]
  simp only [Int.bmod]
  omega

theorem word_eq_shift (a : Fixnum) : a.signed.toUInt64 <<< 1 = a.word := by
  have hsigned : a.signed.toUInt64.toNat = (a.val % 2 ^ 64).toNat := by
    rw [signed, ← UInt64.toNat_toBitVec, Int64.toBitVec_toUInt64, Int64.toBitVec_ofInt, BitVec.toNat_ofInt]
    rfl
  apply UInt64.toNat_inj.1
  rw [UInt64.toNat_shiftLeft, hsigned, toNat_word, show (1 : UInt64).toNat % 64 = 1 from rfl, Nat.shiftLeft_eq]
  omega

theorem untagged?_word (a : Fixnum) : untagged? a.word = some a.signed := by
  have htag : a.word &&& 1 = 0 := by
    apply UInt64.toNat_inj.1
    rw [UInt64.toNat_and, toNat_word, show (1 : UInt64).toNat = 1 from rfl, Nat.and_one_is_mod]
    exact Nat.mul_mod_right 2 _
  rw [untagged?, if_pos htag]
  congr 1
  apply Int64.toInt_inj.1
  rw [← Int64.toInt_toBitVec, Int64.toBitVec_shiftRight, BitVec.toInt_sshiftRight', Int64.toInt_toBitVec, toInt_word,
    toInt_signed, Int.shiftRight_eq_div_pow]
  show 2 * a.val / 2 = a.val
  omega

theorem val_ofBits (n : Nat) : (ofBits n).val = Int.bmod n 0x8000000000000000 := by
  unfold ofBits
  with_reducible rfl

theorem ofBits_emod (a : Fixnum) : ofBits (a.val % 2 ^ 63).toNat = a := by
  have := a.bounds
  apply Subtype.ext
  rw [val_ofBits, Int.toNat_of_nonneg (by omega),
    show (2 : ℤ) ^ 63 = ((0x8000000000000000 : ℕ) : ℤ) by norm_num, Int.emod_bmod]
  exact Int.bmod_eq_of_le (by omega) (by omega)

/-- An integer is read back from its word. -/
theorem ofWord_word (a : Fixnum) : Value.ofWord (Value.fixnum a).word = .fixnum a := by
  show Value.ofWord a.word = .fixnum a
  rw [Value.ofWord, toNat_word, if_pos (Nat.mul_mod_right 2 _), Nat.mul_div_cancel_left _ Nat.two_pos, ofBits_emod]

theorem tagged?_eq {n : Int64} : tagged? n = (ofInt? n.toInt).map word := by
  unfold tagged? ofInt?
  split
  · rename_i h
    have hsigned : signed ⟨n.toInt, h⟩ = n := Int64.toInt_inj.1 (toInt_signed _)
    rw [Option.map_some, ← word_eq_shift, hsigned]
  · rfl

end Fixnum

namespace ArithmeticOp

variable {op : ArithmeticOp} {a b : Fixnum}

/-- A result that has not left the words is exact. -/
theorem toInt_wrapping {x y : Int64} (h : op.overflows x y = false) :
    (op.wrapping x y).toInt = op.exact x.toInt y.toInt := by
  cases op with
  | rem => exact Int64.toInt_mod x y
  | _ => simpa [overflows] using h

theorem toInt_wrapping_eq_bmod {x y : Int64} (hop : op ≠ .rem) :
    (op.wrapping x y).toInt = (op.exact x.toInt y.toInt).bmod (2 ^ 64) := by
  cases op with
  | add => exact Int64.toInt_add x y
  | sub => exact Int64.toInt_sub x y
  | mul => exact Int64.toInt_mul x y
  | div => exact Int64.toInt_div x y
  | rem => exact absurd rfl hop

/-- A result that fits in a value has not left the words, nor has the quotient of two integers from values. -/
theorem overflows_eq_false (h : minFixnum ≤ op.exact a.val b.val ∧ op.exact a.val b.val ≤ maxFixnum) :
    op.overflows a.signed b.signed = false := by
  have ha := a.bounds
  have hstays (op : ArithmeticOp) (hop : op ≠ .rem)
      (hfits : -2 ^ 62 ≤ op.exact a.val b.val ∧ op.exact a.val b.val ≤ 2 ^ 62) :
      decide ((op.wrapping a.signed b.signed).toInt ≠ op.exact a.signed.toInt b.signed.toInt) = false := by
    rw [toInt_wrapping_eq_bmod hop, Fixnum.toInt_signed, Fixnum.toInt_signed,
      Int.bmod_eq_of_le (by omega) (by omega)]
    exact decide_eq_false (not_not.2 rfl)
  have hquotient : -2 ^ 62 ≤ a.val.tdiv b.val ∧ a.val.tdiv b.val ≤ 2 ^ 62 := by
    have := Int.natAbs_tdiv_le_natAbs a.val b.val
    omega
  simp only [minFixnum, maxFixnum] at h
  cases op with
  | rem => exact hstays .div nofun hquotient
  | add | sub | mul | div => exact hstays _ nofun (by omega)

theorem signed_beq_zero (b : Fixnum) : (b.signed == 0) = (b.val == 0) := by
  rw [Bool.eq_iff_iff, beq_iff_eq, beq_iff_eq, ← Fixnum.toInt_signed b, ← Int64.toInt_inj]
  rfl

/-- The limit of the words never refuses what would have passed the limit of the values. -/
theorem bind_checked (hdefined : op.divides = true → b.val ≠ 0) :
    (op.checked a.signed b.signed).bind Fixnum.tagged? = (Fixnum.ofInt? (op.exact a.val b.val)).map Fixnum.word := by
  have hnonzero : ¬(op.divides && b.signed == 0) = true := by
    rw [signed_beq_zero]
    simpa using hdefined
  rw [checked, if_neg hnonzero]
  cases hover : op.overflows a.signed b.signed with
  | true =>
    have hout : Fixnum.ofInt? (op.exact a.val b.val) = none := by
      rw [Fixnum.ofInt?_eq_none_iff]
      by_contra hin
      rw [overflows_eq_false (by omega)] at hover
      cases hover
    rw [hout]
    rfl
  | false =>
    have hexact := toInt_wrapping hover
    rw [Fixnum.toInt_signed, Fixnum.toInt_signed] at hexact
    show Fixnum.tagged? (op.wrapping a.signed b.signed) = _
    rw [Fixnum.tagged?_eq, hexact]

theorem onWords_eq (op : ArithmeticOp) (a b : Fixnum) :
    op.onWords a.signed b.signed = (op.outcome a.val b.val).map Fixnum.word := by
  unfold onWords outcome
  rw [signed_beq_zero]
  split
  · rfl
  · rename_i hdefined
    rw [bind_checked (by simpa using hdefined)]
    cases Fixnum.ofInt? (op.exact a.val b.val) <;> rfl

end ArithmeticOp

namespace Native

/-- How a native ends whose operation ends in this way. -/
def settle (op : ArithmeticOp) (heap : Heap) : Except ArithmeticFailure Fixnum → EStateM.Result Fault Heap Reply
  | .ok r => .ok (.answer (.fixnum r)) heap
  | .error failure => .error (.nativeFailed op.selector failure) heap

theorem fixnumResult_eq (op : ArithmeticOp) (heap : Heap) {a b : ℤ} (hdefined : op.divides = true → b ≠ 0) :
    (do return .answer (← fixnumResult op a b) : HeapM Reply) heap = settle op heap (op.outcome a b) := by
  rw [ArithmeticOp.outcome_of_defined hdefined, fixnumResult, Value.ofInt?]
  cases Fixnum.ofInt? (op.exact a b) <;> rfl

theorem checkDivisor_eq (op : ArithmeticOp) (heap : Heap) (b : Fixnum) :
    checkDivisor op [.fixnum b] heap =
      if op.divides = true ∧ b.val = 0 then .error (.nativeFailed op.selector .divisionByZero) heap
      else .ok () heap := by
  cases hdivides : op.divides with
  | false =>
    rw [checkDivisor, hdivides]
    rfl
  | true =>
    have hfirst : firstArg [.fixnum b] heap = .ok (.fixnum b) heap := rfl
    have hint : (Value.fixnum b).toInt? = some 0 ↔ b.val = 0 := Option.some_inj
    rw [checkDivisor, hdivides, if_pos rfl, bind_of_ok hfirst]
    by_cases hzero : b.val = 0
    · rw [if_pos (hint.2 hzero), if_pos ⟨rfl, hzero⟩]
      rfl
    · rw [if_neg (mt hint.1 hzero), if_neg fun h => hzero h.2]
      rfl

theorem run_fixnumArithmetic (roots : Roots) (heap : Heap) (op : ArithmeticOp) (a b : Fixnum) :
    run roots (.fixnumArithmetic op) (.fixnum a) [.fixnum b] heap = settle op heap (op.outcome a.val b.val) := by
  have hcheck := checkDivisor_eq op heap b
  by_cases hzero : op.divides = true ∧ b.val = 0
  · rw [if_pos hzero] at hcheck
    rw [hzero.2, ArithmeticOp.outcome_of_divides hzero.1]
    exact bind_of_error hcheck
  · rw [if_neg hzero] at hcheck
    rw [← fixnumResult_eq op heap fun hdivides hb => hzero ⟨hdivides, hb⟩]
    exact bind_of_ok hcheck

/-- A native for two integers that fit in values ends in the one way in which its operation has to: with the exact
result if there is one that fits, which is also what the words give and what is read back from its word, and otherwise
by failing for the reason. The heap is left as it is. A comparison answers whether it holds. -/
theorem fixnums_exact (roots : Roots) (heap : Heap) (a b : Fixnum) :
    (∀ op : ArithmeticOp, ∃ result : Except ArithmeticFailure Fixnum,
      (∀ other, op.Settles a.val b.val other ↔ other = result) ∧
      run roots (.fixnumArithmetic op) (.fixnum a) [.fixnum b] heap = settle op heap result ∧
      (∀ r, result = .ok r → (Value.ofWord (Value.fixnum r).word).toInt? = some r.val) ∧
      ∃ x y, Fixnum.untagged? (Value.fixnum a).word = some x ∧ Fixnum.untagged? (Value.fixnum b).word = some y ∧
        x.toInt = a.val ∧ y.toInt = b.val ∧ op.onWords x y = result.map fun r => (Value.fixnum r).word) ∧
    ∀ relation : Comparison,
      run roots (.fixnumComparison relation) (.fixnum a) [.fixnum b] heap =
        .ok (.answer (roots.boolean (relation.exact a.val b.val))) heap ∧
      (relation.exact a.val b.val = true ↔ relation.Holds a.val b.val) := by
  refine ⟨fun op => ⟨op.outcome a.val b.val, fun _ => ArithmeticOp.settles_iff, run_fixnumArithmetic roots heap op a b,
    fun r _ => ?_, a.signed, b.signed, a.untagged?_word, b.untagged?_word, a.toInt_signed, b.toInt_signed,
    op.onWords_eq a b⟩, fun relation => ⟨rfl, relation.exact_iff⟩⟩
  rw [r.ofWord_word]
  rfl

/-- The least integer divided by minus one stays within the words, but does not fit in a value. -/
example : ArithmeticOp.div.overflows (Int64.ofInt minFixnum) (-1) = false ∧
    ArithmeticOp.div.outcome minFixnum (-1) = .error .overflow :=
  ⟨by decide, rfl⟩

end Native

end ProtoVm
