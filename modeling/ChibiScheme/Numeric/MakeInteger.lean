import ChibiScheme.Numeric.LongLong

/-!
# Integers from double words

`sexp_make_integer_from_lsint` takes the magnitude of a negative double word apart
before it is negated: the low digit is the negated low word, and the high digit is
the complement of the high word, which is right as long as the low word borrows.
Where the low word is zero nothing is borrowed, and the magnitude is too small by
`2 ^ 64`.
-/

namespace ChibiScheme

open Limbs

/-- `lsint_to_sint`, `luint_to_uint`: the low word. -/
def lsintToSint (x : LUInt) : BitVec 64 := x.setWidth 64

/-- `lsint_to_sint_hi`, `luint_to_uint_hi`: the high word. -/
def lsintToSintHi (x : LUInt) : BitVec 64 := (x >>> 64).setWidth 64

/-- `sexp_make_integer_from_lsint` -/
def sexpMakeIntegerFromLsint (x : LUInt) : ExactInt :=
  if lsintIsFixnum x then .fixnum (sexpMakeFixnum (lsintToSint x).toInt)
  else if sexpLsintFitsSint x then
    if lsintLt0 x then .bignum ⟨.neg, [.ofBitVec (-lsintToSint x)]⟩
    else .bignum ⟨.pos, [.ofBitVec (lsintToSint x)]⟩
  else if lsintLt0 x then
    .bignum ⟨.neg, [.ofBitVec (-lsintToSint x), .ofBitVec (~~~lsintToSintHi x)]⟩
  else .bignum ⟨.pos, [.ofBitVec (lsintToSint x), .ofBitVec (lsintToSintHi x)]⟩

/-- `sexp_make_unsigned_integer_from_luint` -/
def sexpMakeUnsignedIntegerFromLuint (x : LUInt) : ExactInt :=
  if luintIsFixnum x then .fixnum (sexpMakeFixnum (lsintToSint x).toNat)
  else if sexpLuintFitsUint x then .bignum ⟨.pos, [.ofBitVec (lsintToSint x)]⟩
  else .bignum ⟨.pos, [.ofBitVec (lsintToSint x), .ofBitVec (lsintToSintHi x)]⟩

variable (x : LUInt)

theorem toNat_lsintToSint : (lsintToSint x).toNat = x.toNat % 2 ^ 64 := BitVec.toNat_setWidth ..

theorem toNat_lsintToSintHi : (lsintToSintHi x).toNat = x.toNat / 2 ^ 64 := by
  have hx := x.isLt
  rw [lsintToSintHi, BitVec.toNat_setWidth, BitVec.toNat_ushiftRight, Nat.shiftRight_eq_div_pow]
  omega

theorem toInt_eq_toNat_cond : x.toInt = if x.toNat < 2 ^ 127 then (x.toNat : ℤ)
    else x.toNat - 2 ^ 128 := by
  rw [BitVec.toInt_eq_toNat_cond]
  split <;> split <;> omega

theorem sexpLsintFitsSint_iff :
    sexpLsintFitsSint x = true ↔ -2 ^ 63 ≤ x.toInt ∧ x.toInt < 2 ^ 63 := by
  have hx := x.isLt
  rw [sexpLsintFitsSint, beq_iff_eq, ← BitVec.toInt_inj,
    BitVec.toInt_signExtend_of_le (show 64 ≤ 128 by decide), BitVec.toInt_eq_toNat_cond,
    BitVec.toNat_setWidth, toInt_eq_toNat_cond]
  split <;> split <;> omega

theorem toInt_lsintToSint (hlow : -2 ^ 63 ≤ x.toInt) (hhigh : x.toInt < 2 ^ 63) :
    (lsintToSint x).toInt = x.toInt := by
  have hfits := (sexpLsintFitsSint_iff x).mpr ⟨hlow, hhigh⟩
  rw [sexpLsintFitsSint, beq_iff_eq] at hfits
  rw [← BitVec.toInt_signExtend_of_le (show 64 ≤ 128 by decide)]
  exact congrArg BitVec.toInt hfits

theorem toInt_oneDigit (sign : Sign) (low : BitVec 64) :
    (Bignum.mk sign [.ofBitVec low]).toInt = sign.toInt * low.toNat := by
  simp [Bignum.toInt, Bignum.magnitude]

theorem toInt_twoDigits (sign : Sign) (low high : BitVec 64) :
    (Bignum.mk sign [.ofBitVec low, .ofBitVec high]).toInt =
      sign.toInt * (low.toNat + 2 ^ 64 * high.toNat) := by
  simp [Bignum.toInt, Bignum.magnitude, base]

theorem lsintIsFixnum_iff : lsintIsFixnum x = true ↔ InFixnumRange x.toInt := by
  rw [lsintIsFixnum, Bool.and_eq_true, decide_eq_true_iff, decide_eq_true_iff]
  rfl

theorem lsintLt0_iff : lsintLt0 x = true ↔ x.toInt < 0 := by
  rw [lsintLt0, BitVec.slt_eq_decide, decide_eq_true_iff, BitVec.toInt_zero]

theorem sexpMakeIntegerFromLsint_toInt :
    (sexpMakeIntegerFromLsint x).toInt =
      if x.toInt < 0 ∧ x.toNat % 2 ^ 64 = 0 then x.toInt + 2 ^ 64 else x.toInt := by
  have hlo := toNat_lsintToSint x
  have hhi := toNat_lsintToSintHi x
  have hcond := toInt_eq_toNat_cond x
  have hneg : (-lsintToSint x).toNat = (2 ^ 64 - x.toNat % 2 ^ 64) % 2 ^ 64 := by
    rw [BitVec.toNat_neg, hlo]
  unfold sexpMakeIntegerFromLsint
  split
  · rename_i hfix
    rw [lsintIsFixnum_iff, inFixnumRange_iff] at hfix
    have hval := toInt_lsintToSint x (by omega) (by omega)
    rw [ExactInt.toInt_fixnum, hval, sexpMakeFixnum_val ((inFixnumRange_iff _).mpr hfix)]
    split <;> omega
  · split
    · rename_i hfits
      rw [sexpLsintFitsSint_iff] at hfits
      split <;> rename_i hsign <;> rw [lsintLt0_iff] at hsign <;>
        rw [ExactInt.toInt_bignum, toInt_oneDigit] <;> simp only [Sign.toInt_neg, Sign.toInt_pos] <;>
        split <;> omega
    · rename_i hwide
      rw [sexpLsintFitsSint_iff] at hwide
      split <;> rename_i hsign <;> rw [lsintLt0_iff] at hsign <;>
        rw [ExactInt.toInt_bignum, toInt_twoDigits] <;>
        simp only [Sign.toInt_neg, Sign.toInt_pos, BitVec.toNat_not] <;> split <;> omega

theorem sexpMakeUnsignedIntegerFromLuint_toInt :
    (sexpMakeUnsignedIntegerFromLuint x).toInt = x.toNat := by
  have hlo := toNat_lsintToSint x
  have hhi := toNat_lsintToSintHi x
  unfold sexpMakeUnsignedIntegerFromLuint
  split
  · rename_i hfix
    rw [luintIsFixnum, decide_eq_true_iff, sexpMaxFixnum] at hfix
    rw [ExactInt.toInt_fixnum, sexpMakeFixnum_val ((inFixnumRange_iff _).mpr (by omega))]
    omega
  · split
    · rename_i hfits
      rw [sexpLuintFitsUint, beq_iff_eq, ← BitVec.toNat_inj, BitVec.toNat_setWidth,
        BitVec.toNat_setWidth] at hfits
      rw [ExactInt.toInt_bignum, toInt_oneDigit, Sign.toInt_pos]
      omega
    · rw [ExactInt.toInt_bignum, toInt_twoDigits, Sign.toInt_pos]
      omega

theorem canonical_of_bignum {n : ℤ} {r : ExactInt} (heq : r.toInt = n)
    (hfixnum : InFixnumRange n → ∃ m, r = .fixnum m) : r.Canonical := by
  cases r with
  | fixnum m => trivial
  | bignum b =>
    intro hrange
    obtain ⟨m, hm⟩ := hfixnum (heq ▸ hrange)
    exact absurd hm (by simp)

/-- A double word becomes the canonical integer that it denotes exactly if it is not
a negative multiple of `2 ^ 64`; without a sign it always does. -/
theorem sexpMakeInteger_iff (x y : LUInt) :
    ((sexpMakeIntegerFromLsint x).toInt = x.toInt ∧ (sexpMakeIntegerFromLsint x).Canonical ↔
        ¬ (x.toInt < 0 ∧ x.toNat % 2 ^ 64 = 0)) ∧
      (sexpMakeUnsignedIntegerFromLuint y).toInt = y.toNat ∧
        (sexpMakeUnsignedIntegerFromLuint y).Canonical := by
  constructor
  · have hvalue := sexpMakeIntegerFromLsint_toInt x
    constructor
    · intro hright hslip
      rw [if_pos hslip] at hvalue
      omega
    · intro hslip
      rw [if_neg hslip] at hvalue
      refine ⟨hvalue, canonical_of_bignum hvalue fun hrange => ?_⟩
      exact ⟨_, if_pos ((lsintIsFixnum_iff x).mpr hrange)⟩
  · have hvalue := sexpMakeUnsignedIntegerFromLuint_toInt y
    refine ⟨hvalue, canonical_of_bignum hvalue fun hrange => ?_⟩
    exact ⟨_, if_pos (decide_eq_true hrange.2)⟩

/-- Both digits that are stored for `-2 ^ 64` are zero. -/
theorem sexpMakeInteger_borrow :
    (BitVec.ofInt 128 (-2 ^ 64)).toInt = -2 ^ 64 ∧
      (sexpMakeIntegerFromLsint (BitVec.ofInt 128 (-2 ^ 64))).toInt = 0 := by
  decide

end ChibiScheme
