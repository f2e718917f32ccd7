import Mathlib.Tactic.Ring
import Mathlib.Tactic.Linarith

/-!
# Signs and fixnums

A fixnum is a 64-bit word whose low bit is the tag `SEXP_FIXNUM_TAG`; the other
63 bits hold a two's complement integer, so the fixnums are the integers from
`SEXP_MIN_FIXNUM = -2^62` to `SEXP_MAX_FIXNUM = 2^62 - 1`.  Boxing shifts the
machine word left by one bit and keeps no record of the bit that falls out:
`sexpMakeFixnum` is the balanced residue modulo `2^63`.
-/

namespace ChibiScheme

/-- The `sign` field of a bignum, `1` or `-1`. -/
inductive Sign where
  | pos
  | neg
deriving DecidableEq, Repr

namespace Sign

/-- The sign as the factor the source multiplies by. -/
def toInt : Sign → ℤ
  | pos => 1
  | neg => -1

/-- `-sexp_bignum_sign(x)`. -/
def flip : Sign → Sign
  | pos => neg
  | neg => pos

/-- `sexp_bignum_sign(a) * sexp_bignum_sign(b)`. -/
def mul : Sign → Sign → Sign
  | pos, sign => sign
  | neg, sign => sign.flip

@[simp] theorem toInt_pos : pos.toInt = 1 := rfl

@[simp] theorem toInt_neg : neg.toInt = -1 := rfl

@[simp] theorem toInt_flip (sign : Sign) : sign.flip.toInt = -sign.toInt := by
  cases sign <;> rfl

@[simp] theorem toInt_mul (left right : Sign) :
    (left.mul right).toInt = left.toInt * right.toInt := by
  cases left <;> cases right <;> rfl

theorem natAbs_toInt_mul (sign : Sign) (n : ℤ) : (sign.toInt * n).natAbs = n.natAbs := by
  cases sign <;> simp

end Sign

/-- `SEXP_MAX_FIXNUM` -/
def sexpMaxFixnum : ℤ := 2 ^ 62 - 1

/-- `SEXP_MIN_FIXNUM` -/
def sexpMinFixnum : ℤ := -2 ^ 62

/-- The integers a fixnum can hold. -/
def InFixnumRange (n : ℤ) : Prop := sexpMinFixnum ≤ n ∧ n ≤ sexpMaxFixnum

instance (n : ℤ) : Decidable (InFixnumRange n) :=
  inferInstanceAs (Decidable (sexpMinFixnum ≤ n ∧ n ≤ sexpMaxFixnum))

theorem inFixnumRange_iff (n : ℤ) : InFixnumRange n ↔ -2 ^ 62 ≤ n ∧ n < 2 ^ 62 := by
  unfold InFixnumRange sexpMinFixnum sexpMaxFixnum
  omega

/-- A fixnum, by the number it stands for. -/
structure Fixnum where
  /-- `sexp_unbox_fixnum(x)` -/
  val : ℤ
  range : InFixnumRange val
deriving DecidableEq

namespace Fixnum

@[ext] theorem ext {left right : Fixnum} (hval : left.val = right.val) : left = right := by
  cases left
  cases right
  cases hval
  rfl

theorem bounds (n : Fixnum) : -2 ^ 62 ≤ n.val ∧ n.val < 2 ^ 62 :=
  (inFixnumRange_iff n.val).mp n.range

theorem natAbs_le (n : Fixnum) : n.val.natAbs ≤ 2 ^ 62 := by
  have hbounds := n.bounds
  omega

end Fixnum

theorem bmod_inFixnumRange (n : ℤ) : InFixnumRange (Int.bmod n (2 ^ 63)) := by
  rw [inFixnumRange_iff]
  have hlower := Int.le_bmod (x := n) (m := 2 ^ 63) (by decide)
  have hupper := Int.bmod_lt (x := n) (m := 2 ^ 63) (by decide)
  omega

/-- `sexp_make_fixnum(n)`: the top bit of the machine word is shifted out. -/
def sexpMakeFixnum (n : ℤ) : Fixnum :=
  ⟨Int.bmod n (2 ^ 63), bmod_inFixnumRange n⟩

theorem sexpMakeFixnum_val {n : ℤ} (hrange : InFixnumRange n) : (sexpMakeFixnum n).val = n := by
  rw [inFixnumRange_iff] at hrange
  show Int.bmod n (2 ^ 63) = n
  apply Int.bmod_eq_of_le <;> omega

theorem sexpMakeFixnum_val_eq_iff (n : ℤ) : (sexpMakeFixnum n).val = n ↔ InFixnumRange n := by
  constructor
  · intro hval
    rw [← hval]
    exact (sexpMakeFixnum n).range
  · exact sexpMakeFixnum_val

/-- `SEXP_ZERO` -/
def sexpZero : Fixnum := sexpMakeFixnum 0

/-- `SEXP_ONE` -/
def sexpOne : Fixnum := sexpMakeFixnum 1

@[simp] theorem sexpZero_val : sexpZero.val = 0 := by decide

@[simp] theorem sexpOne_val : sexpOne.val = 1 := by decide

theorem eq_sexpZero_iff (n : Fixnum) : n = sexpZero ↔ n.val = 0 := by
  rw [Fixnum.ext_iff, sexpZero_val]

theorem eq_sexpOne_iff (n : Fixnum) : n = sexpOne ↔ n.val = 1 := by
  rw [Fixnum.ext_iff, sexpOne_val]

/-- `sexp_fx_sign(a)`: zero counts as positive. -/
def sexpFxSign (a : Fixnum) : Sign :=
  if a.val < 0 then .neg else .pos

/-- `sexp_unbox_fx_abs(a)`, stored into an unsigned word. -/
def sexpUnboxFxAbs (a : Fixnum) : UInt64 :=
  UInt64.ofNat a.val.natAbs

/-- `sexp_fx_neg(a)` -/
def sexpFxNeg (a : Fixnum) : Fixnum := sexpMakeFixnum (-a.val)

/-- `sexp_fx_sub(a, b)`: the subtraction is made on the tagged words. -/
def sexpFxSub (a b : Fixnum) : Fixnum := sexpMakeFixnum (a.val - b.val)

/-- `sexp_fx_div(a, b)` with C's truncating division; `b` is nonzero. -/
def sexpFxDiv (a b : Fixnum) : Fixnum := sexpMakeFixnum (a.val.tdiv b.val)

/-- `sexp_fx_rem(a, b)` with C's remainder; `b` is nonzero. -/
def sexpFxRem (a b : Fixnum) : Fixnum := sexpMakeFixnum (a.val.tmod b.val)

theorem sexpUnboxFxAbs_toNat (a : Fixnum) : (sexpUnboxFxAbs a).toNat = a.val.natAbs := by
  have habs := a.natAbs_le
  unfold sexpUnboxFxAbs
  rw [UInt64.toNat_ofNat']
  exact Nat.mod_eq_of_lt (by omega)

theorem sexpFxSign_mul_abs (a : Fixnum) :
    (sexpFxSign a).toInt * (sexpUnboxFxAbs a).toNat = a.val := by
  rw [sexpUnboxFxAbs_toNat]
  unfold sexpFxSign
  split
  · simp only [Sign.toInt_neg]
    omega
  · simp only [Sign.toInt_pos]
    omega

theorem sexpFxNeg_val (a : Fixnum) (hmin : a.val ≠ -2 ^ 62) : (sexpFxNeg a).val = -a.val := by
  have hbounds := a.bounds
  apply sexpMakeFixnum_val
  rw [inFixnumRange_iff]
  omega

theorem sexpFxNeg_min {a : Fixnum} (hmin : a.val = -2 ^ 62) : sexpFxNeg a = a := by
  apply Fixnum.ext
  show Int.bmod (-a.val) (2 ^ 63) = a.val
  rw [hmin]
  decide

end ChibiScheme
