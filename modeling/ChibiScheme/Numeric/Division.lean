import ChibiScheme.Numeric.QuotRem

/-!
# Quotient and remainder of exact integers

The integer rows of `sexp_quotient` and `sexp_remainder`.  Both are C's
truncating division for every pair of integers but one kind: a fixnum divided
by a bignum is taken to be zero with the fixnum as remainder, which is wrong
when the bignum has the magnitude of the fixnum.  That happens for the least
fixnum only, whose negation is the least positive bignum.
-/

namespace ChibiScheme

open Limbs ExactInt

/-- What an operation on integers returns. -/
inductive IntResult where
  | integer (n : ExactInt)
  | exception (message : String)
  | void
deriving DecidableEq

/-- `sexp_bignum_normalize` -/
def normalizeInteger : ExactInt → ExactInt
  | fixnum n => fixnum n
  | bignum b => sexpBignumNormalize b

/-- Normalizing keeps the number and makes it canonical. -/
theorem normalizeInteger_spec (x : ExactInt) :
    (normalizeInteger x).toInt = x.toInt ∧ (normalizeInteger x).Canonical := by
  cases x with
  | fixnum n => exact ⟨rfl, trivial⟩
  | bignum b => exact ⟨sexpBignumNormalize_toInt b, sexpBignumNormalize_canonical b⟩

/-- `sexp_bignum_normalize(sexp_bignum_quotient(ctx, a, b))` -/
def quotientBigBig (a b : Bignum) : Option IntResult :=
  (sexpBignumQuotRem a b).map fun
    | .ok (q, _) => .integer (normalizeInteger q)
    | .error message => .exception message

/-- `sexp_bignum_normalize(sexp_bignum_remainder(ctx, a, b))`; the exception for a
zero divisor is discarded with the quotient, and the remainder is left unset. -/
def remainderBigBig (a b : Bignum) : Option IntResult :=
  (sexpBignumQuotRem a b).map fun
    | .ok (_, r) => .integer (normalizeInteger r)
    | .error _ => .void

/-- The integer rows of `sexp_quotient`.  `none` is a call with no result: C's
division of two fixnums by zero. -/
def quotientInteger (a b : ExactInt) : Option IntResult :=
  if b = fixnum sexpOne then some (.integer a)
  else
    match a, b with
    | fixnum a, fixnum b =>
      if b = sexpZero then none
      else
        let r := sexpFxDiv a b
        if a.val < 0 ∧ b.val < 0 ∧ r.val < 0 then
          quotientBigBig (sexpFixnumToBignum a) (sexpFixnumToBignum b)
        else some (.integer (fixnum r))
    | fixnum _, bignum _ => some (.integer (fixnum sexpZero))
    | bignum a, fixnum b => quotientBigBig a (sexpFixnumToBignum b)
    | bignum a, bignum b => quotientBigBig a b

/-- The integer rows of `sexp_remainder`. -/
def remainderInteger (a b : ExactInt) : Option IntResult :=
  if b = fixnum sexpOne then some (.integer (fixnum sexpZero))
  else
    match a, b with
    | fixnum a, fixnum b =>
      if b = sexpZero then none else some (.integer (fixnum (sexpFxRem a b)))
    | fixnum a, bignum _ => some (.integer (fixnum a))
    | bignum a, fixnum b =>
      match sexpBignumFxrem a b.val with
      | some r => some (.integer (fixnum r))
      | none => some (.exception "divide by zero")
    | bignum a, bignum b => remainderBigBig a b

/-- The dividend is the least fixnum and the divisor a bignum of its magnitude. -/
def MinByItsMagnitude : ExactInt → ExactInt → Prop
  | fixnum a, bignum b => a.val = -2 ^ 62 ∧ b.magnitude = 2 ^ 62
  | _, _ => False

private theorem quotientBigBig_spec (a : Bignum) {b : Bignum} (hb : b.magnitude ≠ 0) :
    ∃ q, quotientBigBig a b = some (.integer q) ∧ q.toInt = a.toInt.tdiv b.toInt ∧
      q.Canonical := by
  obtain ⟨q, r, hresult, hq, -⟩ := sexpBignumQuotRem_spec a hb
  have hnormal := normalizeInteger_spec q
  refine ⟨normalizeInteger q, ?_, hnormal.1.trans hq, hnormal.2⟩
  rw [quotientBigBig, hresult]
  rfl

private theorem remainderBigBig_spec (a : Bignum) {b : Bignum} (hb : b.magnitude ≠ 0) :
    ∃ r, remainderBigBig a b = some (.integer r) ∧ r.toInt = a.toInt.tmod b.toInt ∧
      r.Canonical := by
  obtain ⟨q, r, hresult, -, hr⟩ := sexpBignumQuotRem_spec a hb
  have hnormal := normalizeInteger_spec r
  refine ⟨normalizeInteger r, ?_, hnormal.1.trans hr, hnormal.2⟩
  rw [remainderBigBig, hresult]
  rfl

private theorem natAbs_lt_of_wide {a : Fixnum} {b : Bignum} (hwide : (bignum b).Wide)
    (hmin : ¬ MinByItsMagnitude (fixnum a) (bignum b)) : a.val.natAbs < b.toInt.natAbs := by
  have hbounds := a.bounds
  have hmagnitude : 2 ^ 62 ≤ b.magnitude := hwide
  have hnot : ¬ (a.val = -2 ^ 62 ∧ b.magnitude = 2 ^ 62) := hmin
  rw [b.natAbs_toInt]
  omega

theorem sexpFxDiv_val {a b : Fixnum}
    (hsign : ¬ (a.val < 0 ∧ b.val < 0 ∧ (sexpFxDiv a b).val < 0)) :
    (sexpFxDiv a b).val = a.val.tdiv b.val := by
  apply sexpMakeFixnum_val
  have hbounds := a.bounds
  have habs : (a.val.tdiv b.val).natAbs ≤ a.val.natAbs := by
    rw [Int.natAbs_tdiv]
    exact Nat.div_le_self _ _
  have htop : a.val.tdiv b.val ≠ 2 ^ 62 := by
    intro htop
    have hneg : (sexpFxDiv a b).val = -2 ^ 62 := by
      show Int.bmod (a.val.tdiv b.val) (2 ^ 63) = _
      rw [htop]
      decide
    have hmin : a.val = -2 ^ 62 := by omega
    refine hsign ⟨by omega, ?_, by omega⟩
    by_contra hnonneg
    have hle := Int.tdiv_nonneg (a := 2 ^ 62) (b := b.val) (by decide) (by omega)
    rw [hmin, Int.neg_tdiv] at htop
    omega
  rw [inFixnumRange_iff]
  omega

theorem sexpFxRem_val (a b : Fixnum) : (sexpFxRem a b).val = a.val.tmod b.val := by
  apply sexpMakeFixnum_val
  have hbounds := a.bounds
  have habs : (a.val.tmod b.val).natAbs ≤ a.val.natAbs := by
    rw [Int.natAbs_tmod]
    exact Nat.mod_le _ _
  have hsign : a.val ≤ 0 → a.val.tmod b.val ≤ 0 := by
    intro hle
    have hneg := Int.tmod_nonneg b.val (show 0 ≤ -a.val by omega)
    rw [Int.neg_tmod] at hneg
    omega
  rw [inFixnumRange_iff]
  omega

private theorem tdiv_tmod_of_natAbs_lt {a b : ℤ} (hlt : a.natAbs < b.natAbs) :
    a.tdiv b = 0 ∧ a.tmod b = a := by
  have hdiv : a.tdiv b = 0 := by
    apply Int.natAbs_eq_zero.mp
    rw [Int.natAbs_tdiv]
    exact Nat.div_eq_of_lt hlt
  have hidentity := Int.mul_tdiv_add_tmod a b
  rw [hdiv, mul_zero, zero_add] at hidentity
  exact ⟨hdiv, hidentity⟩

private theorem fixnumToBignum_magnitude_ne_zero {b : Fixnum} (hb : b.val ≠ 0) :
    (sexpFixnumToBignum b).magnitude ≠ 0 := by
  rw [sexpFixnumToBignum_magnitude]
  omega

private theorem bignum_magnitude_ne_zero {b : Bignum} (hb : b.toInt ≠ 0) : b.magnitude ≠ 0 := by
  rw [← b.natAbs_toInt]
  omega

/-- The quotient is truncated, but for the least fixnum by its magnitude. -/
theorem quotientInteger_spec {a b : ExactInt} (hb : b.toInt ≠ 0) (hwide : b.Wide)
    (hmin : ¬ MinByItsMagnitude a b) :
    ∃ q, quotientInteger a b = some (.integer q) ∧ q.toInt = a.toInt.tdiv b.toInt ∧
      (b = fixnum sexpOne ∧ q = a ∨ q.Canonical) := by
  unfold quotientInteger
  by_cases hone : b = fixnum sexpOne
  · refine ⟨a, if_pos hone, ?_, .inl ⟨hone, rfl⟩⟩
    rw [hone, toInt_fixnum, sexpOne_val, Int.tdiv_one]
  · simp only [if_neg hone]
    cases a with
    | fixnum a =>
      cases b with
      | fixnum b =>
        have hzero : b ≠ sexpZero := fun h => hb ((eq_sexpZero_iff b).mp h)
        simp only [if_neg hzero]
        split
        · obtain ⟨q, hresult, hq, hcanonical⟩ :=
            quotientBigBig_spec (sexpFixnumToBignum a) (fixnumToBignum_magnitude_ne_zero hb)
          rw [sexpFixnumToBignum_toInt, sexpFixnumToBignum_toInt] at hq
          exact ⟨q, hresult, hq, .inr hcanonical⟩
        · rename_i hsign
          exact ⟨_, rfl, sexpFxDiv_val hsign, .inr trivial⟩
      | bignum b =>
        have hsmall := tdiv_tmod_of_natAbs_lt (natAbs_lt_of_wide hwide hmin)
        exact ⟨_, rfl, sexpZero_val.trans hsmall.1.symm, .inr trivial⟩
    | bignum a =>
      cases b with
      | fixnum b =>
        obtain ⟨q, hresult, hq, hcanonical⟩ :=
          quotientBigBig_spec a (fixnumToBignum_magnitude_ne_zero hb)
        rw [sexpFixnumToBignum_toInt] at hq
        exact ⟨q, hresult, hq, .inr hcanonical⟩
      | bignum b =>
        obtain ⟨q, hresult, hq, hcanonical⟩ :=
          quotientBigBig_spec a (bignum_magnitude_ne_zero hb)
        exact ⟨q, hresult, hq, .inr hcanonical⟩

/-- The remainder of the truncated quotient. -/
theorem remainderInteger_spec {a b : ExactInt} (hb : b.toInt ≠ 0) (hwide : b.Wide)
    (hmin : ¬ MinByItsMagnitude a b) :
    ∃ r, remainderInteger a b = some (.integer r) ∧ r.toInt = a.toInt.tmod b.toInt ∧
      r.Canonical := by
  unfold remainderInteger
  by_cases hone : b = fixnum sexpOne
  · refine ⟨_, if_pos hone, ?_, trivial⟩
    rw [hone, toInt_fixnum, toInt_fixnum, sexpOne_val, sexpZero_val, Int.tmod_one]
  · simp only [if_neg hone]
    cases a with
    | fixnum a =>
      cases b with
      | fixnum b =>
        have hzero : b ≠ sexpZero := fun h => hb ((eq_sexpZero_iff b).mp h)
        simp only [if_neg hzero]
        exact ⟨_, rfl, sexpFxRem_val a b, trivial⟩
      | bignum b =>
        have hsmall := tdiv_tmod_of_natAbs_lt (natAbs_lt_of_wide hwide hmin)
        exact ⟨_, rfl, hsmall.2.symm, trivial⟩
    | bignum a =>
      cases b with
      | fixnum b =>
        obtain ⟨r, hresult, hr⟩ := sexpBignumFxrem_spec a hb
        simp only [hresult]
        exact ⟨_, rfl, hr, trivial⟩
      | bignum b => exact remainderBigBig_spec a (bignum_magnitude_ne_zero hb)

theorem divideInteger_min {a b : ExactInt} (hmin : MinByItsMagnitude a b) :
    quotientInteger a b = some (.integer (fixnum sexpZero)) ∧
      remainderInteger a b = some (.integer a) := by
  cases a with
  | fixnum a =>
    cases b with
    | fixnum b => exact hmin.elim
    | bignum b => exact ⟨rfl, rfl⟩
  | bignum a => exact hmin.elim

end ChibiScheme
