import Mathlib.Data.List.GetD
import ChibiScheme.Lib.Limbs
import ChibiScheme.Numeric.Fixnum

/-!
# Bignums: representation, comparison, normalization

A bignum object holds a sign and an array of 64-bit digits, least significant
first.  The array may be longer than the number needs: `sexp_bignum_hi` finds
the significant length each time it is wanted, and every routine works up to
it.  A bignum therefore denotes `sign * value digits`, and two objects with
different arrays may denote the same integer.

Digit counts and indexes are natural numbers here.  In the source many are `int`s, those
of `sexp_bignum_compare_abs`, `sexp_bignum_fxdiv` and `sexp_bignum_fxrem` among them.
`Bignum.FitsInt` bounds the arrays so that both are the same.
-/

namespace ChibiScheme

open Limbs List

/-- The sign and the digit array of a bignum object. -/
structure Bignum where
  sign : Sign
  data : List UInt64
deriving DecidableEq, Repr

namespace Bignum

/-- The array is short enough for the `int`s of the source: `int i` and `int ai, bi` hold every
count and index that an operation forms from such arrays, a product of two included. -/
def FitsInt (a : Bignum) : Prop := a.data.length ≤ 2 ^ 28

instance (a : Bignum) : Decidable a.FitsInt := inferInstanceAs (Decidable (_ ≤ _))

/-- The number that the digits denote. -/
def magnitude (a : Bignum) : ℕ := value a.data

/-- The integer that the bignum denotes. -/
def toInt (a : Bignum) : ℤ := a.sign.toInt * a.magnitude

/-- The digit at index `i`, zero past the end of the array. -/
def digit (a : Bignum) (i : ℕ) : UInt64 := a.data.getD i 0

/-- The first `count` digits. -/
def digits (a : Bignum) (count : ℕ) : List UInt64 :=
  a.data.take count ++ List.replicate (count - a.data.length) 0

/-- `sexp_bignum_data(a)[i] = word` -/
def setDigit (a : Bignum) (i : ℕ) (word : UInt64) : Bignum :=
  { a with data := a.data.set i word }

variable (a : Bignum)

@[simp] theorem length_digits (count : ℕ) : (a.digits count).length = count := by
  simp only [digits, length_append, length_take, length_replicate]
  omega

@[simp] theorem value_digits (count : ℕ) : value (a.digits count) = value (a.data.take count) := by
  simp [digits, value_append]

theorem take_digits {count total : ℕ} (hle : count ≤ total) :
    (a.digits total).take count = a.digits count := by
  apply ext_getElem?
  intro i
  simp only [digits, getElem?_append, getElem?_take, getElem?_replicate, length_take]
  grind

theorem natAbs_toInt : a.toInt.natAbs = a.magnitude := by
  rw [toInt, Sign.natAbs_toInt_mul, Int.natAbs_natCast]

/-- `sexp_bignum_sign(a) = sign` -/
def withSign (a : Bignum) (sign : Sign) : Bignum := { a with sign := sign }

variable (sign : Sign)

@[simp] theorem withSign_sign : (a.withSign sign).sign = sign := rfl

@[simp] theorem withSign_data : (a.withSign sign).data = a.data := rfl

@[simp] theorem magnitude_withSign : (a.withSign sign).magnitude = a.magnitude := rfl

theorem toInt_withSign : (a.withSign sign).toInt = sign.toInt * a.magnitude := rfl

/-- `sexp_negate_exact` on a bignum: the sign is flipped in place. -/
def negate (a : Bignum) : Bignum := a.withSign a.sign.flip

@[simp] theorem magnitude_negate : a.negate.magnitude = a.magnitude := rfl

@[simp] theorem toInt_negate : a.negate.toInt = -a.toInt := by
  simp [negate, toInt, withSign, magnitude]

@[simp] theorem negate_negate : a.negate.negate = a := by
  cases a with
  | mk sign data => cases sign <;> rfl

end Bignum

/-! ## Allocation and copying -/

/-- `sexp_make_bignum`: a positive bignum of `len` zero digits. -/
def sexpMakeBignum (len : ℕ) : Bignum := ⟨.pos, List.replicate len 0⟩

/-- `sexp_fixnum_to_bignum`: a bignum of one digit. -/
def sexpFixnumToBignum (a : Fixnum) : Bignum := ⟨sexpFxSign a, [sexpUnboxFxAbs a]⟩

/-- `sexp_copy_bignum` into a new object; a length of zero keeps the length. -/
def sexpCopyBignum (a : Bignum) (len : ℕ) : Bignum :=
  if len = 0 then a else ⟨a.sign, a.digits len⟩

theorem value_copy_setDigit (a : Bignum) (len : ℕ) (word : UInt64) :
    ((sexpCopyBignum a (len + 1)).setDigit len word).magnitude =
      value (a.digits len) + base ^ len * word.toNat := by
  have hset : (a.digits (len + 1)).set len word = a.digits len ++ [word] := by
    apply ext_getElem?
    intro i
    simp only [getElem?_set, Bignum.digits, getElem?_append, getElem?_take, getElem?_replicate,
      length_append, length_take, length_replicate, getElem?_singleton]
    grind
  simp only [Bignum.magnitude, Bignum.setDigit, sexpCopyBignum, Nat.add_eq_zero_iff, one_ne_zero,
    and_false, if_false, hset, value_append, Bignum.length_digits]
  simp

@[simp] theorem sexpFixnumToBignum_magnitude (a : Fixnum) :
    (sexpFixnumToBignum a).magnitude = a.val.natAbs := by
  simp [sexpFixnumToBignum, Bignum.magnitude, sexpUnboxFxAbs_toNat]

@[simp] theorem sexpFixnumToBignum_toInt (a : Fixnum) : (sexpFixnumToBignum a).toInt = a.val := by
  rw [← sexpFxSign_mul_abs a]
  simp [sexpFixnumToBignum, Bignum.toInt, Bignum.magnitude]

/-! ## The significant length -/

/-- The loop of `sexp_bignum_hi`, from index `i` down. -/
def hiLoop (data : List UInt64) : ℕ → ℕ
  | 0 => 1
  | i + 1 => if data.getD (i + 1) 0 = 0 then hiLoop data i else i + 2

/-- `sexp_bignum_hi`: the number of digits up to the highest nonzero one, at
least one. -/
def sexpBignumHi (a : Bignum) : ℕ := hiLoop a.data (a.data.length - 1)

variable (data : List UInt64) (i : ℕ)

theorem one_le_hiLoop : 1 ≤ hiLoop data i := by
  induction i with
  | zero => exact le_rfl
  | succ i ih =>
    unfold hiLoop
    split
    · exact ih
    · omega

theorem hiLoop_le : hiLoop data i ≤ i + 1 := by
  induction i with
  | zero => exact le_rfl
  | succ i ih =>
    unfold hiLoop
    split
    · exact ih.trans (Nat.le_succ _)
    · exact le_rfl

theorem getD_of_hiLoop_le {i k : ℕ} (hlow : hiLoop data i ≤ k) (hhigh : k ≤ i) :
    data.getD k 0 = 0 := by
  induction i with
  | zero =>
    have hone := one_le_hiLoop data 0
    omega
  | succ i ih =>
    unfold hiLoop at hlow
    split at hlow
    · rename_i hzero
      rcases Nat.lt_or_ge k (i + 1) with hlt | hge
      · exact ih hlow (by omega)
      · have hk : k = i + 1 := by omega
        rwa [hk]
    · omega

theorem getD_hiLoop_ne_zero {i : ℕ} (hone : 1 < hiLoop data i) :
    data.getD (hiLoop data i - 1) 0 ≠ 0 := by
  induction i with
  | zero => simp [hiLoop] at hone
  | succ i ih =>
    unfold hiLoop at hone ⊢
    split
    · rename_i hzero
      rw [if_pos hzero] at hone
      exact ih hone
    · rename_i hnonzero
      simpa using hnonzero

theorem one_le_sexpBignumHi (a : Bignum) : 1 ≤ sexpBignumHi a := one_le_hiLoop _ _

theorem sexpBignumHi_le (a : Bignum) : sexpBignumHi a ≤ max 1 a.data.length := by
  have hle := hiLoop_le a.data (a.data.length - 1)
  unfold sexpBignumHi
  omega

variable {a : Bignum}

theorem sexpBignumHi_le_length (hne : a.data ≠ []) : sexpBignumHi a ≤ a.data.length := by
  have hlen := length_pos_iff.mpr hne
  have hle := sexpBignumHi_le a
  omega

theorem sexpBignumHi_le_length_of_one_lt (hone : 1 < sexpBignumHi a) :
    sexpBignumHi a ≤ a.data.length := by
  have hle := sexpBignumHi_le a
  omega

theorem drop_sexpBignumHi (a : Bignum) : value (a.data.drop (sexpBignumHi a)) = 0 := by
  rw [value_eq_zero_iff]
  intro word hword
  obtain ⟨i, hi, rfl⟩ := mem_iff_getElem.mp hword
  rw [length_drop] at hi
  rw [getElem_drop]
  have hzero := getD_of_hiLoop_le a.data (i := a.data.length - 1) (k := sexpBignumHi a + i)
    (Nat.le_add_right _ _) (by omega)
  rwa [getD_eq_getElem _ _ (by omega)] at hzero

theorem value_take_sexpBignumHi (a : Bignum) :
    value (a.data.take (sexpBignumHi a)) = a.magnitude := by
  rcases Nat.lt_or_ge a.data.length (sexpBignumHi a) with hlt | hge
  · rw [take_of_length_le hlt.le]
    rfl
  · have hsplit := value_take_add_drop a.data hge
    rw [drop_sexpBignumHi] at hsplit
    simpa [Bignum.magnitude] using hsplit.symm

theorem magnitude_lt_base_pow_hi (a : Bignum) : a.magnitude < base ^ sexpBignumHi a := by
  rw [← value_take_sexpBignumHi]
  refine (value_lt _).trans_le (Nat.pow_le_pow_right base_pos ?_)
  rw [length_take]
  exact Nat.min_le_left _ _

theorem base_pow_hi_le_magnitude (hone : 1 < sexpBignumHi a) :
    base ^ (sexpBignumHi a - 1) ≤ a.magnitude := by
  have hlen := sexpBignumHi_le_length_of_one_lt hone
  have htake : (a.data.take (sexpBignumHi a)).length = sexpBignumHi a := by
    rw [length_take, Nat.min_eq_left hlen]
  have hne : a.data.take (sexpBignumHi a) ≠ [] := by
    intro hnil
    rw [hnil, length_nil] at htake
    omega
  have hlast : (a.data.take (sexpBignumHi a)).getLast hne ≠ 0 := by
    have hdigit : a.data.getD (sexpBignumHi a - 1) 0 ≠ 0 := getD_hiLoop_ne_zero a.data hone
    rw [getD_eq_getElem _ _ (by omega)] at hdigit
    rw [getLast_eq_getElem]
    simpa only [htake, getElem_take] using hdigit
  have hle := le_value_of_getLast_ne_zero hne hlast
  rwa [htake, value_take_sexpBignumHi] at hle

theorem lt_sexpBignumHi {count : ℕ} (hle : base ^ count ≤ a.magnitude) :
    count < sexpBignumHi a := by
  have hlt := hle.trans_lt (magnitude_lt_base_pow_hi a)
  exact (Nat.pow_lt_pow_iff_right one_lt_base).mp hlt

theorem sexpBignumHi_le_of_magnitude_lt {count : ℕ} (hcount : 1 ≤ count)
    (hlt : a.magnitude < base ^ count) : sexpBignumHi a ≤ count := by
  by_contra hgt
  have hone : 1 < sexpBignumHi a := by omega
  have hle := base_pow_hi_le_magnitude hone
  have hpow := Nat.pow_le_pow_right base_pos (show count ≤ sexpBignumHi a - 1 by omega)
  omega

theorem magnitude_of_hi_eq_one (hone : sexpBignumHi a = 1) : a.magnitude = (a.digit 0).toNat := by
  rw [← value_take_sexpBignumHi, hone]
  cases hdata : a.data with
  | nil => simp [Bignum.digit, hdata]
  | cons word words => simp [Bignum.digit, hdata]

/-! ## Comparison -/

/-- The digit loop of `sexp_bignum_compare_abs`, below index `i`. -/
def compareDigits (adata bdata : List UInt64) : ℕ → ℤ
  | 0 => 0
  | i + 1 =>
    if adata.getD i 0 > bdata.getD i 0 then 1
    else if adata.getD i 0 < bdata.getD i 0 then -1
    else compareDigits adata bdata i

/-- `sexp_bignum_compare_abs`, for lengths that fit in its `int ai, bi`. -/
def sexpBignumCompareAbs (a b : Bignum) : ℤ :=
  let ai := sexpBignumHi a
  let bi := sexpBignumHi b
  if ai ≠ bi then (ai : ℤ) - bi
  else compareDigits a.data b.data ai

/-- `sexp_bignum_compare`: the signs decide, or else the magnitudes. -/
def sexpBignumCompare (a b : Bignum) : ℤ :=
  if a.sign ≠ b.sign then a.sign.toInt
  else
    let cmp := sexpBignumCompareAbs a b
    if a.sign = .neg then -cmp else cmp

theorem value_take_succ :
    value (data.take (i + 1)) = value (data.take i) + base ^ i * (data.getD i 0).toNat := by
  rcases Nat.lt_or_ge i data.length with hlt | hge
  · rw [take_succ_eq_append_getElem hlt, value_append, length_take,
      Nat.min_eq_left hlt.le, getD_eq_getElem _ _ hlt]
    simp
  · rw [take_of_length_le (by omega), take_of_length_le hge,
      getD_eq_default _ _ hge]
    simp

theorem value_take_lt : value (data.take i) < base ^ i := by
  refine (value_lt _).trans_le (Nat.pow_le_pow_right base_pos ?_)
  rw [length_take]
  exact Nat.min_le_left _ _

private theorem add_mul_lt_add_mul {low weight high high' : ℕ} (low' : ℕ) (hlow : low < weight)
    (hhigh : high < high') : low + weight * high < low' + weight * high' := by
  have hstep : weight * (high + 1) ≤ weight * high' := Nat.mul_le_mul_left _ hhigh
  rw [Nat.mul_succ] at hstep
  omega

theorem sign_compareDigits (adata bdata : List UInt64) (i : ℕ) :
    (compareDigits adata bdata i).sign =
      ((value (adata.take i) : ℤ) - value (bdata.take i)).sign := by
  induction i with
  | zero => simp [compareDigits]
  | succ i ih =>
    rw [value_take_succ, value_take_succ]
    have halow := value_take_lt adata i
    have hblow := value_take_lt bdata i
    unfold compareDigits
    split
    · rename_i hgt
      have hlt := add_mul_lt_add_mul (value (adata.take i)) hblow
        (UInt64.lt_iff_toNat_lt.mp hgt)
      rw [Int.sign_eq_one_of_pos (a := _ - _) (by omega)]
      rfl
    · split
      · rename_i hlt
        have hlt := add_mul_lt_add_mul (value (bdata.take i)) halow
          (UInt64.lt_iff_toNat_lt.mp hlt)
        rw [Int.sign_eq_neg_one_of_neg (a := _ - _) (by omega)]
        rfl
      · rename_i hnotGt hnotLt
        have heq : adata.getD i 0 = bdata.getD i 0 := by
          apply UInt64.toNat_inj.mp
          rw [gt_iff_lt, UInt64.lt_iff_toNat_lt] at hnotGt
          rw [UInt64.lt_iff_toNat_lt] at hnotLt
          omega
        rw [ih, heq]
        congr 1
        push_cast
        ring

theorem sign_sexpBignumCompareAbs (a b : Bignum) :
    (sexpBignumCompareAbs a b).sign = ((a.magnitude : ℤ) - b.magnitude).sign := by
  unfold sexpBignumCompareAbs
  simp only
  split
  · rename_i hne
    rcases Nat.lt_or_gt_of_ne hne with hlt | hgt
    · have hmag : a.magnitude < b.magnitude := by
        have hone := one_le_sexpBignumHi a
        calc a.magnitude < base ^ sexpBignumHi a := magnitude_lt_base_pow_hi a
          _ ≤ base ^ (sexpBignumHi b - 1) := Nat.pow_le_pow_right base_pos (by omega)
          _ ≤ b.magnitude := base_pow_hi_le_magnitude (by omega)
      rw [Int.sign_eq_neg_one_of_neg (by omega), Int.sign_eq_neg_one_of_neg (by omega)]
    · have hmag : b.magnitude < a.magnitude := by
        have hone := one_le_sexpBignumHi b
        calc b.magnitude < base ^ sexpBignumHi b := magnitude_lt_base_pow_hi b
          _ ≤ base ^ (sexpBignumHi a - 1) := Nat.pow_le_pow_right base_pos (by omega)
          _ ≤ a.magnitude := base_pow_hi_le_magnitude (by omega)
      rw [Int.sign_eq_one_of_pos (by omega), Int.sign_eq_one_of_pos (by omega)]
  · rename_i heq
    rw [not_not] at heq
    rw [sign_compareDigits, value_take_sexpBignumHi, heq, value_take_sexpBignumHi]

theorem sexpBignumCompareAbs_neg_iff (a b : Bignum) :
    sexpBignumCompareAbs a b < 0 ↔ a.magnitude < b.magnitude := by
  rw [← Int.sign_eq_neg_one_iff_neg, sign_sexpBignumCompareAbs, Int.sign_eq_neg_one_iff_neg]
  omega

theorem sexpBignumCompareAbs_nonneg_iff (a b : Bignum) :
    0 ≤ sexpBignumCompareAbs a b ↔ b.magnitude ≤ a.magnitude := by
  rw [← not_lt, sexpBignumCompareAbs_neg_iff, not_lt]

theorem sign_sexpBignumCompare {b : Bignum} (hnonzero : a.magnitude ≠ 0 ∨ b.magnitude ≠ 0) :
    (sexpBignumCompare a b).sign = (a.toInt - b.toInt).sign := by
  unfold sexpBignumCompare Bignum.toInt
  have habs := sign_sexpBignumCompareAbs a b
  cases ha : a.sign <;> cases hb : b.sign
  · simpa using habs
  · rw [if_pos (by decide), Sign.toInt_pos, Sign.toInt_neg, Int.sign_eq_one_of_pos (a := _ - _)
      (by omega)]
    rfl
  · rw [if_pos (by decide), Sign.toInt_pos, Sign.toInt_neg,
      Int.sign_eq_neg_one_of_neg (a := _ - _) (by omega)]
    rfl
  · simp only [ne_eq, not_true_eq_false, if_false, if_true, Int.sign_neg, habs, Sign.toInt_neg]
    rw [← Int.sign_neg]
    congr 1
    ring

/-! ## Exact integers and normalization -/

/-- An exact integer as the arithmetic routines see it. -/
inductive ExactInt where
  | fixnum (n : Fixnum)
  | bignum (b : Bignum)
deriving DecidableEq

namespace ExactInt

/-- A bignum operand is short enough for the `int`s of the source. -/
def FitsInt : ExactInt → Prop
  | fixnum _ => True
  | bignum b => b.FitsInt

/-- The integer that the operand denotes. -/
def toInt : ExactInt → ℤ
  | fixnum n => n.val
  | bignum b => b.toInt

@[simp] theorem toInt_fixnum (n : Fixnum) : (fixnum n).toInt = n.val := rfl

@[simp] theorem toInt_bignum (b : Bignum) : (bignum b).toInt = b.toInt := rfl

/-- A bignum is used only outside the fixnum range. -/
def Canonical : ExactInt → Prop
  | fixnum _ => True
  | bignum b => ¬ InFixnumRange b.toInt

instance (x : ExactInt) : Decidable x.Canonical :=
  match x with
  | fixnum _ => inferInstanceAs (Decidable True)
  | bignum b => inferInstanceAs (Decidable (¬ InFixnumRange b.toInt))

/-- A bignum has magnitude at least `2^62`.  This is what canonical integers
keep when their sign is flipped in place. -/
def Wide : ExactInt → Prop
  | fixnum _ => True
  | bignum b => 2 ^ 62 ≤ b.magnitude

theorem Canonical.wide {x : ExactInt} (hcanonical : x.Canonical) : x.Wide := by
  cases x with
  | fixnum n => trivial
  | bignum b =>
    have habs := b.natAbs_toInt
    have hout : ¬ InFixnumRange b.toInt := hcanonical
    rw [inFixnumRange_iff] at hout
    show 2 ^ 62 ≤ b.magnitude
    omega

end ExactInt

/-- `sexp_bignum_normalize` on a bignum. -/
def sexpBignumNormalize (a : Bignum) : ExactInt :=
  if sexpBignumHi a > 1 then .bignum a
  else
    let low := a.digit 0
    if ((low.toNat : ℤ) > sexpMaxFixnum ∧
        ¬ (a.sign = .neg ∧ (low.toNat : ℤ) = sexpMaxFixnum + 1)) then .bignum a
    else .fixnum (sexpMakeFixnum (low.toNat * a.sign.toInt))

theorem base_le_magnitude_of_hi (hone : 1 < sexpBignumHi a) : base ≤ a.magnitude := by
  calc base = base ^ 1 := (pow_one _).symm
    _ ≤ base ^ (sexpBignumHi a - 1) := Nat.pow_le_pow_right base_pos (by omega)
    _ ≤ a.magnitude := base_pow_hi_le_magnitude hone

theorem sexpBignumNormalize_eq (a : Bignum) :
    sexpBignumNormalize a =
      if InFixnumRange a.toInt then .fixnum (sexpMakeFixnum a.toInt) else .bignum a := by
  have hbase : base = 2 ^ 64 := rfl
  unfold sexpBignumNormalize
  split
  · rename_i hone
    have hmag := base_le_magnitude_of_hi hone
    have habs := a.natAbs_toInt
    have hout : ¬ InFixnumRange a.toInt := by
      rw [inFixnumRange_iff]
      omega
    rw [if_neg hout]
  · rename_i hone
    have hlow := magnitude_of_hi_eq_one (le_antisymm (not_lt.mp hone) (one_le_sexpBignumHi a))
    have hint : a.toInt = (a.digit 0).toNat * a.sign.toInt := by
      rw [Bignum.toInt, hlow, mul_comm]
    have hrange : ((a.digit 0).toNat : ℤ) > sexpMaxFixnum ∧
        ¬ (a.sign = .neg ∧ ((a.digit 0).toNat : ℤ) = sexpMaxFixnum + 1) ↔
          ¬ InFixnumRange a.toInt := by
      rw [hint, inFixnumRange_iff]
      unfold sexpMaxFixnum
      cases hsign : a.sign
      · simp only [Sign.toInt_pos, mul_one, reduceCtorEq, false_and, not_false_eq_true, and_true]
        omega
      · simp only [Sign.toInt_neg, true_and]
        omega
    simp only [hrange, ite_not, hint]

@[simp] theorem sexpBignumNormalize_toInt (a : Bignum) :
    (sexpBignumNormalize a).toInt = a.toInt := by
  rw [sexpBignumNormalize_eq]
  split
  · rename_i hrange
    exact sexpMakeFixnum_val hrange
  · rfl

theorem sexpBignumNormalize_canonical (a : Bignum) : (sexpBignumNormalize a).Canonical := by
  rw [sexpBignumNormalize_eq]
  split
  · trivial
  · rename_i hrange
    exact hrange

end ChibiScheme
