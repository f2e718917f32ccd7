import ChibiScheme.Numeric.BignumMul

/-!
# Exact integer arithmetic

The fixnum and bignum rows of the dispatch tables of `sexp_add`, `sexp_sub`,
`sexp_mul` and `sexp_compare`.  The operands are swapped so that the fixnum comes
first wherever the source swaps them.

Addition and multiplication are exact for all operands and return a canonical
integer.  The fixnum row of subtraction is not: it subtracts the tagged words
and leaves the overflow check to the virtual machine.  Comparison of two
fixnums returns their difference, boxed.
-/

namespace ChibiScheme

open Limbs ExactInt

/-- `SEXP_NUM_FIX_BIG` of `sexp_add` -/
def addFixBig (a : Fixnum) (b : Bignum) : ExactInt :=
  sexpBignumNormalize (sexpBignumAddFixnum b a)

/-- The integer rows of `sexp_add`. -/
def addInteger : ExactInt → ExactInt → ExactInt
  | fixnum a, fixnum b =>
    let sum := a.val + b.val
    if sum < sexpMinFixnum ∨ sum > sexpMaxFixnum then addFixBig b (sexpFixnumToBignum a)
    else fixnum (sexpMakeFixnum sum)
  | fixnum a, bignum b => addFixBig a b
  | bignum a, fixnum b => addFixBig b a
  | bignum a, bignum b => sexpBignumNormalize (sexpBignumAdd none b a)

/-- The integer rows of `sexp_sub`. -/
def subInteger : ExactInt → ExactInt → ExactInt
  | fixnum a, fixnum b => fixnum (sexpFxSub a b)
  | fixnum a, bignum b =>
    sexpBignumNormalize (sexpBignumSub none b (sexpFixnumToBignum a)).negate
  | bignum a, fixnum b => sexpBignumNormalize (sexpBignumSub none a (sexpFixnumToBignum b))
  | bignum a, bignum b => sexpBignumNormalize (sexpBignumSub none a b)

/-- `SEXP_NUM_FIX_BIG` of `sexp_mul` -/
def mulFixBig (a : Fixnum) (b : Bignum) : ExactInt :=
  sexpBignumNormalize
    ((sexpBignumFxmul none b (sexpUnboxFxAbs a) 0).withSign ((sexpFxSign a).mul b.sign))

/-- The integer rows of `sexp_mul`; the product of two fixnums is formed in a
signed double word. -/
def mulInteger : ExactInt → ExactInt → ExactInt
  | fixnum a, fixnum b =>
    let prod := a.val * b.val
    if ¬ (sexpMinFixnum ≤ prod ∧ prod ≤ sexpMaxFixnum) then mulFixBig b (sexpFixnumToBignum a)
    else fixnum (sexpMakeFixnum prod)
  | fixnum a, bignum b => mulFixBig a b
  | bignum a, fixnum b => mulFixBig b a
  | bignum a, bignum b => sexpBignumNormalize (sexpBignumMul a b)

/-- `SEXP_NUM_FIX_BIG` of `sexp_compare` -/
def compareFixBig (a : Fixnum) (b : Bignum) : Fixnum :=
  if sexpBignumHi b > 1 ∨ ((b.digit 0).toNat : ℤ) > sexpMaxFixnum then
    sexpMakeFixnum (if b.sign = .neg then 1 else -1)
  else sexpMakeFixnum (a.val - (b.digit 0).toNat)

/-- The integer rows of `sexp_compare`; with the bignum first the operands are
swapped and the result negated. -/
def compareInteger : ExactInt → ExactInt → Fixnum
  | fixnum a, fixnum b => sexpMakeFixnum (a.val - b.val)
  | fixnum a, bignum b => compareFixBig a b
  | bignum a, fixnum b => sexpFxNeg (compareFixBig b a)
  | bignum a, bignum b => sexpMakeFixnum (sexpBignumCompare a b)

/-! ## Addition -/

private theorem addFixBig_spec (a : Fixnum) (b : Bignum) :
    (addFixBig a b).toInt = a.val + b.toInt ∧ (addFixBig a b).Canonical := by
  refine ⟨?_, sexpBignumNormalize_canonical _⟩
  rw [addFixBig, sexpBignumNormalize_toInt, sexpBignumAddFixnum_toInt, add_comm]

/-- The sum, in all four cases. -/
theorem addInteger_spec (a b : ExactInt) :
    (addInteger a b).toInt = a.toInt + b.toInt ∧ (addInteger a b).Canonical := by
  cases a with
  | fixnum a =>
    cases b with
    | fixnum b =>
      unfold addInteger
      simp only
      split
      · have hsum := addFixBig_spec b (sexpFixnumToBignum a)
        refine ⟨?_, hsum.2⟩
        rw [hsum.1, sexpFixnumToBignum_toInt, add_comm]
        rfl
      · rename_i hrange
        refine ⟨sexpMakeFixnum_val ?_, trivial⟩
        unfold InFixnumRange
        omega
    | bignum b => exact addFixBig_spec a b
  | bignum a =>
    cases b with
    | fixnum b =>
      have hsum := addFixBig_spec b a
      exact ⟨hsum.1.trans (add_comm _ _), hsum.2⟩
    | bignum b =>
      refine ⟨?_, sexpBignumNormalize_canonical _⟩
      rw [addInteger, sexpBignumNormalize_toInt, sexpBignumAdd_toInt (.inl rfl), add_comm]
      rfl

/-! ## Subtraction -/

/-- The operands of `sexp_sub` whose difference is formed exactly: all but two
fixnums whose difference is not a fixnum. -/
def SubExact : ExactInt → ExactInt → Prop
  | fixnum a, fixnum b => InFixnumRange (a.val - b.val)
  | _, _ => True

theorem subInteger_canonical (a b : ExactInt) : (subInteger a b).Canonical := by
  cases a <;> cases b <;> first | exact sexpBignumNormalize_canonical _ | trivial

theorem subInteger_toInt_iff (a b : ExactInt) :
    (subInteger a b).toInt = a.toInt - b.toInt ↔ SubExact a b := by
  cases a with
  | fixnum a =>
    cases b with
    | fixnum b => exact sexpMakeFixnum_val_eq_iff _
    | bignum b =>
      simp only [SubExact, iff_true, subInteger, sexpBignumNormalize_toInt, Bignum.toInt_negate,
        sexpBignumSub_toInt, sexpFixnumToBignum_toInt, toInt_fixnum, toInt_bignum]
      ring
  | bignum a =>
    cases b with
    | fixnum b =>
      simp only [SubExact, subInteger, sexpBignumNormalize_toInt,
        sexpBignumSub_toInt, sexpFixnumToBignum_toInt, toInt_fixnum, toInt_bignum]
    | bignum b =>
      simp only [SubExact, subInteger, sexpBignumNormalize_toInt, sexpBignumSub_toInt,
        toInt_bignum]

/-! ## Multiplication -/

private theorem mulFixBig_spec (a : Fixnum) (b : Bignum) :
    (mulFixBig a b).toInt = a.val * b.toInt ∧ (mulFixBig a b).Canonical := by
  refine ⟨?_, sexpBignumNormalize_canonical _⟩
  rw [mulFixBig, sexpBignumNormalize_toInt, Bignum.toInt_withSign,
    sexpBignumFxmul_magnitude (.inl rfl), Sign.toInt_mul, ← sexpFxSign_mul_abs a, Bignum.toInt]
  push_cast
  ring

/-- The product, in all four cases. -/
theorem mulInteger_spec (a b : ExactInt) :
    (mulInteger a b).toInt = a.toInt * b.toInt ∧ (mulInteger a b).Canonical := by
  cases a with
  | fixnum a =>
    cases b with
    | fixnum b =>
      unfold mulInteger
      simp only
      split
      · have hproduct := mulFixBig_spec b (sexpFixnumToBignum a)
        refine ⟨?_, hproduct.2⟩
        rw [hproduct.1, sexpFixnumToBignum_toInt, mul_comm]
        rfl
      · rename_i hrange
        exact ⟨sexpMakeFixnum_val (not_not.mp hrange), trivial⟩
    | bignum b => exact mulFixBig_spec a b
  | bignum a =>
    cases b with
    | fixnum b =>
      have hproduct := mulFixBig_spec b a
      exact ⟨hproduct.1.trans (mul_comm _ _), hproduct.2⟩
    | bignum b =>
      refine ⟨?_, sexpBignumNormalize_canonical _⟩
      rw [mulInteger, sexpBignumNormalize_toInt, sexpBignumMul_toInt]
      rfl

end ChibiScheme
